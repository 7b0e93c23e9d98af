import AluVm.Cursor.ReadSpec

/-!
# Reads and writes that stay in the byte string do not panic

The cursor bounds its position by the `u16` address space (`Err(Eof)`, `Err(OutOfBoundaries)`), never by the length of
its byte string, and every read indexes the byte string before `inc_bytes` checks anything. `ReadOp.Fits o c` says
that every byte `o` indexes at `c` lies in the byte string, that a byte-aligned read is at bit offset 0, and that a
slice's length prefix leaves `2u16 + len` in `u16`. At the end of data every read fails with `Err(Eof)` and the cursor
as it was (`call_of_eof`); off it, a read that fits does not panic (`call_ne_none`), and neither does a run of reads
that fit at every call (`runReads_ne_none_of_fits`; `runReads_safe_of_fits` states both). A read that does not fit
may panic, as `read_u8` on an empty byte string does (`readU8_empty_panics`), or fail first: `read_slice` on
`[0xFD, 0xFF]` returns `Err(OutOfBoundaries(65537))` (`readSlice_error_moves`).

The writes index the byte string the same way. `Field.Fits f c` asks the same of a write, and of a slice only that it
is short enough to be written or long enough to be rejected before anything is stored; a register value must be at
least as wide as the register, since `write_value` panics otherwise. A run of writes that fit at every call does not
panic (`runWrites_ne_none_of_fits`).
-/

namespace AluVm

open Cursor

namespace ReadOp

/-- The `u16` length prefix at the cursor, as `read_slice` reads it. -/
def slicePrefix (c : Cursor) : Nat := (fromLeBytes ((c.bytecode.drop c.bytePos.val).take 2)).toNat

/-- The read indexes only bytes of the byte string, at a byte boundary if it is byte-aligned, and a slice's length
prefix is below `65534`. -/
def Fits : ReadOp → Cursor → Prop
  | .peekU8, c => c.bytePos.val < c.bytecode.length
  | .readBool, c => c.bytePos.val < c.bytecode.length
  | .readU _, c => c.bytePos.val < c.bytecode.length
  | .readU8, c => c.bitPos.val = 0 ∧ c.bytePos.val < c.bytecode.length
  | .readU16, c => c.bitPos.val = 0 ∧ c.bytePos.val + 2 ≤ c.bytecode.length
  | .readI16, c => c.bitPos.val = 0 ∧ c.bytePos.val + 2 ≤ c.bytecode.length
  | .readBytes32, c => c.bitPos.val = 0 ∧ c.bytePos.val + 32 ≤ c.bytecode.length
  | .readSlice, c => c.bitPos.val = 0 ∧ c.bytePos.val + 2 ≤ c.bytecode.length ∧ slicePrefix c < 65534 ∧
      c.bytePos.val + 2 + slicePrefix c ≤ c.bytecode.length
  | .readValue reg, c => c.bitPos.val = 0 ∧ c.bytePos.val + reg.bits.val / 8 ≤ c.bytecode.length

instance (o : ReadOp) (c : Cursor) : Decidable (o.Fits c) :=
  match o with
  | .peekU8 => inferInstanceAs (Decidable (_ < _))
  | .readBool => inferInstanceAs (Decidable (_ < _))
  | .readU _ => inferInstanceAs (Decidable (_ < _))
  | .readU8 => inferInstanceAs (Decidable (_ ∧ _))
  | .readU16 => inferInstanceAs (Decidable (_ ∧ _))
  | .readI16 => inferInstanceAs (Decidable (_ ∧ _))
  | .readBytes32 => inferInstanceAs (Decidable (_ ∧ _))
  | .readSlice => inferInstanceAs (Decidable (_ ∧ _ ∧ _ ∧ _))
  | .readValue _ => inferInstanceAs (Decidable (_ ∧ _))

/-- At the end of data every read fails with `Err(Eof)` and leaves the cursor as it is. -/
theorem call_of_eof {c : Cursor} (he : c.eof = true) (o : ReadOp) : o.call c = some (.error .eof, c) := by
  cases o <;> simp [call, mapResult, Cursor.peekU8, Cursor.readBool, Cursor.readUN, Cursor.extract, Cursor.readU8,
    Cursor.readU16, Cursor.readI16, Cursor.readLe16, Cursor.readBytes32, Cursor.readSlice, Cursor.readValue,
    Except.map, he]

end ReadOp

namespace Cursor

theorem incBytes_ne_none {c : Cursor} (h0 : c.bitPos.val = 0) (k : Fin 65536) : incBytes c k ≠ none := by
  cases he : c.eof
  · simp [incBytes_of_aligned h0 he]
  · simp [incBytes_of_eof h0 he]

theorem range_of_le {bs : List (BitVec 8)} {s e : Nat} (h : s ≤ e) (he : e ≤ bs.length) :
    range bs s e = some ((bs.drop s).take (e - s)) := by
  simp [range, h, he]

/-- The value `extract` returns is the masked byte at the byte offset. -/
theorem extract_ok {c c' : Cursor} {n : Fin 8} {b : BitVec 8} (h : extract c n = some (.ok b, c')) :
    ∃ byte, c.bytecode[c.bytePos.val]? = some byte ∧
      b = (byte &&& (maskLoop n.val 0#8 <<< c.bitPos.val)) >>> c.bitPos.val := by
  unfold extract at h
  split_ifs at h
  · simp at h
  · simp only [Option.map_eq_some'] at h
    obtain ⟨byte, hb, h⟩ := h
    refine ⟨byte, hb, ?_⟩
    have := congrArg Prod.fst h
    cases hr : (incBits c n).1 <;> simp_all [putValue, Except.map]

theorem extract_ne_none {c : Cursor} (he : c.eof = false) (hp : c.bytePos.val < c.bytecode.length) (n : Fin 8) :
    extract c n ≠ none := by
  simp [extract, he, List.getElem?_eq_getElem hp]

/-- A bit-field read never fails its `expect`: the extracted byte fits in the field's width. -/
theorem tryInto_extract {c c' : Cursor} {w : Width} {b : BitVec 8} (h : extract c w.bitCount = some (.ok b, c')) :
    tryInto w b = some (BitVec.ofNat w.bits b.toNat) := by
  obtain ⟨byte, -, rfl⟩ := extract_ok h
  have hlt : ((byte &&& (maskLoop w.bits 0#8 <<< c.bitPos.val)) >>> c.bitPos.val).toNat < 2 ^ w.bits :=
    Nat.lt_pow_two_of_testBit _ fun i hi => getLsbD_extracted_ge byte hi
  simp only [Width.bitCount]
  rw [tryInto, if_pos hlt]

theorem readUN_ne_none {c : Cursor} (w : Width) (he : c.eof = false) (hp : c.bytePos.val < c.bytecode.length) :
    readUN w c ≠ none := by
  obtain ⟨⟨r, c'⟩, hx⟩ := Option.ne_none_iff_exists'.mp (extract_ne_none he hp w.bitCount)
  rcases r with e | b
  · simp [readUN, hx]
  · simp [readUN, hx, tryInto_extract hx]

theorem readLe16_value {c c' : Cursor} {w : BitVec 16} (h : readLe16 c = some (.ok w, c')) :
    w = fromLeBytes ((c.bytecode.drop c.bytePos.val).take 2) := by
  unfold readLe16 at h
  split_ifs at h
  · simp at h
  simp only [Option.bind_eq_some, Option.map_eq_some'] at h
  obtain ⟨buf, hbuf, ⟨r₁, c₁⟩, -, h⟩ := h
  obtain ⟨-, -, rfl⟩ := range_eq_some hbuf
  rcases r₁ with e | u
  · simp at h
  · have := (Prod.mk.inj h).1
    simp only [Except.map, Except.ok.injEq, Nat.add_sub_cancel_left] at this
    exact this.symm

theorem readLe16_ne_none {c : Cursor} (h0 : c.bitPos.val = 0) (hp : c.bytePos.val + 2 ≤ c.bytecode.length) :
    readLe16 c ≠ none := by
  unfold readLe16
  split_ifs
  · simp
  · simp only [range_of_le (Nat.le_add_right _ 2) hp, Option.some_bind, ne_eq, Option.map_eq_none']
    exact incBytes_ne_none h0 2

theorem readSlice_ne_none {c : Cursor} (he : c.eof = false) (h : ReadOp.Fits .readSlice c) : readSlice c ≠ none := by
  obtain ⟨h0, hp, hl, hd⟩ := h
  obtain ⟨⟨r₁, c₁⟩, h₁⟩ := Option.ne_none_iff_exists'.mp (readLe16_ne_none h0 hp)
  rcases r₁ with e | w
  · simp [readSlice, he, readU16, h₁]
  have hw : w.toNat = ReadOp.slicePrefix c := by rw [readLe16_value h₁]; rfl
  obtain ⟨-, hbc₁, -, hb₁, hp₁⟩ := readLe16_ok h₁
  have hm : u16Add 2 w.toNat = some ⟨2 + w.toNat, by omega⟩ := by simp [u16Add, show 2 + w.toNat < 65536 by omega]
  obtain ⟨⟨r₂, c₂⟩, h₂⟩ := Option.ne_none_iff_exists'.mp
    (incBytes_ne_none (c := c₁) (by rw [hb₁]; exact h0) ⟨2 + w.toNat, by omega⟩)
  rcases r₂ with e | u
  · simp [readSlice, he, readU16, h₁, hm, h₂]
  · have hbc₂ := (incBytes_bytecode h₂).1
    have hd' : c.bytePos.val + 2 + w.toNat ≤ c.bytecode.length := by omega
    simp [readSlice, he, readU16, h₁, hm, h₂, range, hbc₂, hbc₁, hp₁, hd']

theorem readValue_ne_none {c : Cursor} (reg : RegisterSet) (h0 : c.bitPos.val = 0)
    (hp : c.bytePos.val + reg.bits.val / 8 ≤ c.bytecode.length) : readValue reg c ≠ none := by
  unfold readValue
  split_ifs
  · simp
  · simp only [range_of_le (Nat.le_add_right _ _) hp, Option.some_bind, ne_eq, Option.map_eq_none']
    exact incBytes_ne_none h0 _

end Cursor

namespace ReadOp

theorem mapResult_ne_none {α β : Type} (f : α → β) {x : Call α} (h : x ≠ none) : mapResult f x ≠ none := by
  simpa [mapResult] using h

/-- Off the end of data a read that fits the byte string does not panic; at the end of data none does. -/
theorem call_ne_none {o : ReadOp} {c : Cursor} (h : c.eof = false → o.Fits c) : o.call c ≠ none := by
  cases he : c.eof
  · have hf := h he
    cases o with
    | peekU8 => simp [call, Cursor.peekU8, he, List.getElem?_eq_getElem (show c.bytePos.val < _ from hf)]
    | readBool =>
      refine mapResult_ne_none _ ?_
      simpa [Cursor.readBool, he] using extract_ne_none he hf 1
    | readU w => exact mapResult_ne_none _ (readUN_ne_none w he hf)
    | readU8 =>
      refine mapResult_ne_none _ ?_
      simpa [Cursor.readU8, he, List.getElem?_eq_getElem hf.2] using incBytes_ne_none hf.1 1
    | readU16 | readI16 => exact mapResult_ne_none _ (readLe16_ne_none hf.1 hf.2)
    | readBytes32 =>
      refine mapResult_ne_none _ ?_
      simpa [Cursor.readBytes32, he, hf.2] using incBytes_ne_none hf.1 32
    | readSlice => exact mapResult_ne_none _ (readSlice_ne_none he hf)
    | readValue reg => exact mapResult_ne_none _ (readValue_ne_none reg hf.1 hf.2)
  · simp [call_of_eof he]

/-- `read_u8` on an empty byte string indexes past its end and panics. -/
theorem readU8_empty_panics : ReadOp.readU8.call (withBytecode []) = none := by decide

end ReadOp

/-- Off the end of data, every call of a run of reads fits the byte string at the cursor it is issued at. -/
def FitsRun : Cursor → List ReadOp → Prop
  | _, [] => True
  | c, o :: os => (c.eof = false → o.Fits c) ∧ ∀ x ∈ o.call c, FitsRun x.2 os

instance decFitsRun : (c : Cursor) → (os : List ReadOp) → Decidable (FitsRun c os)
  | _, [] => isTrue trivial
  | c, o :: os =>
    have : DecidablePred fun x : Except CursorError Field × Cursor => FitsRun x.2 os := fun x => decFitsRun x.2 os
    inferInstanceAs (Decidable ((c.eof = false → o.Fits c) ∧ ∀ x ∈ o.call c, FitsRun x.2 os))

/-- A run of reads in which every call fits the byte string never panics. -/
theorem runReads_ne_none_of_fits : ∀ {c : Cursor} {os : List ReadOp}, FitsRun c os → runReads c os ≠ none
  | _, [], _ => by simp [runReads]
  | _, _ :: _, ⟨h, hs⟩ => by
    obtain ⟨⟨r, c'⟩, hc⟩ := Option.ne_none_iff_exists'.mp (ReadOp.call_ne_none h)
    simpa [runReads, hc] using runReads_ne_none_of_fits (hs _ hc)

/-- A run of reads in which every call off the end of data fits the byte string never panics, and every call issued at
the end of data fails with `Err(Eof)` and leaves the cursor as it is. -/
theorem runReads_safe_of_fits {c : Cursor} {os : List ReadOp} (h : FitsRun c os) :
    runReads c os ≠ none ∧ ∀ (o : ReadOp) (d : Cursor), d.eof = true → o.call d = some (.error .eof, d) :=
  ⟨runReads_ne_none_of_fits h, fun o _ he => ReadOp.call_of_eof he o⟩

theorem runReads_safe_of_fits_slice :
    FitsRun (withBytecode [2#8, 0#8, 7#8, 9#8, 0#8, 0#8, 5#8]) [.readSlice, .peekU8] ∧
      runReads (withBytecode [2#8, 0#8, 7#8, 9#8, 0#8, 0#8, 5#8]) [.readSlice, .peekU8] ≠ none ∧
      ∀ (o : ReadOp) (d : Cursor), d.eof = true → o.call d = some (.error .eof, d) :=
  ⟨by decide, runReads_safe_of_fits (by decide)⟩

/-! ## Writes -/

namespace Cursor

theorem setByte_of_lt {bs : List (BitVec 8)} {i : Nat} (v : BitVec 8) (h : i < bs.length) :
    setByte bs i v = some (bs.set i v) :=
  if_pos h

theorem copyFromSlice_of_le {bs : List (BitVec 8)} {s e : Nat} (src : List (BitVec 8)) (h : s ≤ e)
    (he : e ≤ bs.length) (hs : src.length = e - s) : copyFromSlice bs s e src = some (bs.take s ++ src ++ bs.drop e) :=
  if_pos ⟨h, he, hs⟩

theorem deposit_ne_none {data : BitVec 8} {n : Fin 8} {c : Cursor} (h : c.bytePos.val < c.bytecode.length) :
    deposit data n c ≠ none := by
  simp [deposit, orByte, List.getElem?_eq_getElem h]

theorem writeLe16_ne_none {v : BitVec 16} {c : Cursor} (h0 : c.bitPos.val = 0)
    (hp : c.bytePos.val + 2 ≤ c.bytecode.length) : writeLe16 v c ≠ none := by
  simp only [writeLe16, setByte_of_lt _ (show c.bytePos.val < c.bytecode.length by omega), Option.some_bind,
    setByte_of_lt _ (show c.bytePos.val + 1 < (c.bytecode.set _ _).length by simp; omega)]
  exact incBytes_ne_none (by exact h0) 2

theorem writeSlice_ne_none {v : List (BitVec 8)} {c : Cursor} (h0 : c.bitPos.val = 0) (hv : v.length < 65534)
    (hp : c.bytePos.val + 2 + v.length ≤ c.bytecode.length) : writeSlice v c ≠ none := by
  rw [writeSlice, if_neg (by omega)]
  obtain ⟨⟨r₁, c₁⟩, h₁⟩ := Option.ne_none_iff_exists'.mp
    (writeLe16_ne_none (v := BitVec.ofNat 16 v.length) h0 (by omega))
  simp only [writeU16, h₁, Option.some_bind]
  cases r₁ with
  | error => simp
  | ok u =>
    obtain ⟨-, -, -, hb₁, hp₁⟩ := writeLe16_ok h₁
    have hl₁ := (writeLe16_spec h₁).frame.1
    simp only [copyFromSlice_of_le v (Nat.le_add_right _ v.length)
      (show c₁.bytePos.val + v.length ≤ c₁.bytecode.length by omega) (by omega), Option.some_bind, u16Add,
      dif_pos (show 2 + v.length < 65536 by omega)]
    exact incBytes_ne_none (by exact hb₁ ▸ h0) _

end Cursor

namespace Field

/-- The write stores only into bytes of the byte string, at a byte boundary if it is byte-aligned; a slice is either
rejected for its length or leaves `2u16 + len` in `u16`; a register value is at least as wide as the register. -/
def Fits : Field → Cursor → Prop
  | .bool _, c | .bits _ _, c => c.bytePos.val < c.bytecode.length
  | .u8 _, c => c.bitPos.val = 0 ∧ c.bytePos.val < c.bytecode.length
  | .u16 _, c | .i16 _, c => c.bitPos.val = 0 ∧ c.bytePos.val + 2 ≤ c.bytecode.length
  | .bytes32 _, c => c.bitPos.val = 0 ∧ c.bytePos.val + 32 ≤ c.bytecode.length
  | .slice v, c => 65535 ≤ v.length ∨
      (c.bitPos.val = 0 ∧ v.length < 65534 ∧ c.bytePos.val + 2 + v.length ≤ c.bytecode.length)
  | .value reg n, c => reg.bits.val / 8 ≤ n.len ∧ c.bitPos.val = 0 ∧
      c.bytePos.val + reg.bits.val / 8 ≤ c.bytecode.length

instance (f : Field) (c : Cursor) : Decidable (f.Fits c) :=
  match f with
  | .bool _ | .bits _ _ => inferInstanceAs (Decidable (_ < _))
  | .u8 _ | .u16 _ | .i16 _ | .bytes32 _ | .value _ _ => inferInstanceAs (Decidable (_ ∧ _))
  | .slice _ => inferInstanceAs (Decidable (_ ∨ _))

/-- A write that fits the byte string does not panic. -/
theorem write_ne_none {f : Field} {c : Cursor} (h : f.Fits c) : f.write c ≠ none := by
  cases f with
  | bool b | bits w v => exact deposit_ne_none h
  | u8 v =>
    simp only [write, writeU8, setByte_of_lt _ h.2, Option.some_bind]
    exact incBytes_ne_none (by exact h.1) 1
  | u16 v | i16 v => exact writeLe16_ne_none h.1 h.2
  | bytes32 v =>
    simp only [write, writeBytes32, copyFromSlice_of_le v.bytes (Nat.le_add_right _ 32) h.2 (by simp [v.length_eq]),
      Option.some_bind]
    exact incBytes_ne_none (by exact h.1) 32
  | slice v =>
    rcases h with h | ⟨h0, hv, hp⟩
    · simp [write, writeSlice, h]
    · exact writeSlice_ne_none h0 hv hp
  | value reg n =>
    obtain ⟨hn, h0, hp⟩ := h
    simp only [write, writeValue, if_pos hn, len_reshape_register,
      copyFromSlice_of_le _ (Nat.le_add_right _ _) hp
        (by rw [Nat.add_sub_cancel_left]; exact len_reshape_register reg n), Option.some_bind]
    exact incBytes_ne_none (by exact h0) _

end Field

/-- Every call of a run of writes fits the byte string at the cursor it is issued at. -/
def WriteFitsRun : Cursor → List Field → Prop
  | _, [] => True
  | c, f :: fs => f.Fits c ∧ ∀ x ∈ f.write c, WriteFitsRun x.2 fs

instance decWriteFitsRun : (c : Cursor) → (fs : List Field) → Decidable (WriteFitsRun c fs)
  | _, [] => isTrue trivial
  | c, f :: fs =>
    have : DecidablePred fun x : Except CursorError Unit × Cursor => WriteFitsRun x.2 fs :=
      fun x => decWriteFitsRun x.2 fs
    inferInstanceAs (Decidable (f.Fits c ∧ ∀ x ∈ f.write c, WriteFitsRun x.2 fs))

/-- A run of writes in which every call fits the byte string never panics. -/
theorem runWrites_ne_none_of_fits : ∀ {c : Cursor} {fs : List Field}, WriteFitsRun c fs → runWrites c fs ≠ none
  | _, [], _ => by simp [runWrites]
  | _, _ :: _, ⟨h, hs⟩ => by
    obtain ⟨⟨r, c'⟩, hc⟩ := Option.ne_none_iff_exists'.mp (Field.write_ne_none h)
    simpa [runWrites, hc] using runWrites_ne_none_of_fits (hs _ hc)

theorem runWrites_slice_ne_none :
    WriteFitsRun (withBytecode (List.replicate 7 0#8)) [.slice [7#8], .u8 9#8, .bits .u3 5#3] ∧
      runWrites (withBytecode (List.replicate 7 0#8)) [.slice [7#8], .u8 9#8, .bits .u3 5#3] ≠ none :=
  ⟨by decide, runWrites_ne_none_of_fits (by decide)⟩

end AluVm
