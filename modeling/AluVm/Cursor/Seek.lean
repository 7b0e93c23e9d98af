import AluVm.Cursor.ReadSpec

/-!
# Seeking

`seek` sets the byte offset and nothing else. Reads and seeks never change the byte string, so every cursor reachable
from `Cursor::with(bytecode)` by them reads `bytecode` (`reachable_bytecode`). Off the end of data and at a byte
boundary, seeking such a cursor gives the cursor that seeking a fresh one gives, so every later run of reads goes the
same (`seek_restarts_reads`); a cursor left mid-byte keeps its bit offset, and the next byte-aligned read panics on the
alignment assertion where a fresh cursor reads the byte (`seek_keeps_bit_offset`).
-/

namespace AluVm

open Cursor

theorem ReaderStep.bytecode {c c' : Cursor} (h : ReaderStep c c') : c'.bytecode = c.bytecode := by
  cases h with
  | read o h => exact ReadOp.call_bytecode h
  | seek => rfl

/-- Every cursor reachable from `Cursor::with(bytecode)` by reads and seeks reads `bytecode`. -/
theorem reachable_bytecode {bs : List (BitVec 8)} {c : Cursor}
    (h : Relation.ReflTransGen ReaderStep (withBytecode bs) c) : c.bytecode = bs := by
  induction h with
  | refl => rfl
  | tail _ hs ih => rw [hs.bytecode, ih]

/-- Off the end of data and at a byte boundary, a reachable cursor seeks to the fresh cursor's seek. -/
theorem seek_eq_withBytecode_seek {bs : List (BitVec 8)} {c : Cursor}
    (h : Relation.ReflTransGen ReaderStep (withBytecode bs) c) (he : c.eof = false) (hb : c.bitPos = 0)
    (p : Fin 65536) : c.seek p = (withBytecode bs).seek p := by
  obtain ⟨bytecode, bytePos, bitPos, eof⟩ := c
  cases reachable_bytecode h
  simp only at he hb
  subst he hb
  rfl

/-- A cursor reachable by reads and seeks, off the end of data and at a byte boundary, seeks like a fresh cursor:
every later run of reads goes the same. -/
theorem seek_restarts_reads {bs : List (BitVec 8)} {c : Cursor}
    (h : Relation.ReflTransGen ReaderStep (withBytecode bs) c) (he : c.eof = false) (hb : c.bitPos = 0)
    (p : Fin 65536) (os : List ReadOp) : runReads (c.seek p) os = runReads ((withBytecode bs).seek p) os := by
  rw [seek_eq_withBytecode_seek h he hb]

theorem seek_restarts_after_readU8 :
    Relation.ReflTransGen ReaderStep (withBytecode [7#8, 0xFF#8]) ⟨[7#8, 0xFF#8], 1, 0, false⟩ ∧
      runReads ((⟨[7#8, 0xFF#8], 1, 0, false⟩ : Cursor).seek 0) [.readU8, .readU8] =
        runReads ((withBytecode [7#8, 0xFF#8]).seek 0) [.readU8, .readU8] :=
  have h := Relation.ReflTransGen.single (ReaderStep.read .readU8 (r := .ok (.u8 7#8)) (by decide))
  ⟨h, seek_restarts_reads h rfl rfl 0 [.readU8, .readU8]⟩

/-- After `read_u1` the bit offset is 1; seeking keeps it, and `read_u8` then panics where a fresh cursor reads. -/
theorem seek_keeps_bit_offset :
    ReaderStep (withBytecode [0#8, 0xFF#8]) ⟨[0#8, 0xFF#8], 0, 1, false⟩ ∧
      runReads ((⟨[0#8, 0xFF#8], 0, 1, false⟩ : Cursor).seek 1) [.readU8] = none ∧
      runReads ((withBytecode [0#8, 0xFF#8]).seek 1) [.readU8] =
        some [(.ok (.u8 0xFF#8), ⟨[0#8, 0xFF#8], 2, 0, false⟩)] :=
  ⟨ReaderStep.read (.readU .u1) (r := .ok (.bits .u1 0#1)) (by decide), by decide, by decide⟩

end AluVm
