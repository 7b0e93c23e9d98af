import AluVm.Cursor.ReadSpec

/-!
# What a failed call leaves behind

A read checks before it moves, except `read_slice`, whose `read_u16` has passed the length prefix when the advance over
the data fails; a write stores before it checks, so a failed write may have stored into the bits of its field, and
`write_slice` may also have passed its length prefix (`call_error_frame`). `read_slice` on the prefix `65533` fails
with the cursor two bytes on (`readSlice_error_moves`).
-/

namespace AluVm

open Cursor

/-- A failed call keeps the bit offset and the flag. A failed read keeps the byte string and the byte offset, but
`read_slice` may have passed its length prefix; a failed write changes no bit outside its field and keeps the byte
offset, but `write_slice` may have passed its length prefix. -/
theorem call_error_frame (c c' : Cursor) (e : CursorError) :
    (∀ o : ReadOp, o.call c = some (.error e, c') →
      c'.bytecode = c.bytecode ∧ c'.bitPos = c.bitPos ∧ c'.eof = c.eof ∧
        (c'.bytePos = c.bytePos ∨ (o = .readSlice ∧ c'.bytePos.val = c.bytePos.val + 2))) ∧
    (∀ f : Field, f.write c = some (.error e, c') →
      Unchanged c.bytecode c'.bytecode c.bitOffset (c.bitOffset + f.span) ∧ c'.bitPos = c.bitPos ∧ c'.eof = c.eof ∧
        (c'.bytePos = c.bytePos ∨ ((∃ v, f = .slice v) ∧ c'.bytePos.val = c.bytePos.val + 2))) := by
  refine ⟨fun o h => ?_, fun f h => ?_⟩
  · by_cases hp : o = .peekU8
    · subst hp
      obtain rfl := ReadOp.call_peekU8 h
      exact ⟨rfl, rfl, rfl, .inl rfl⟩
    · have s := ReadOp.call_spec hp h
      obtain ⟨hb, he, hpos⟩ := s.error e rfl
      refine ⟨s.bytecode, hb, he, ?_⟩
      by_cases hs : o = .readSlice
      · subst hs
        exact hpos.imp_right fun h => ⟨rfl, h⟩
      · have : o.moved = 0 := by cases o <;> simp_all [ReadOp.moved]
        exact .inl (hpos.elim id fun h => Fin.ext (by omega))
  · have s := Field.write_spec h
    obtain ⟨hb, he, hpos⟩ := s.error (by simp)
    refine ⟨s.frame, hb, he, ?_⟩
    by_cases hs : ∃ v, f = .slice v
    · obtain ⟨v, rfl⟩ := hs
      exact hpos.imp_right fun h => ⟨⟨v, rfl⟩, h⟩
    · have : f.moved = 0 := by cases f <;> simp_all [Field.moved]
      exact .inl (hpos.elim id fun h => Fin.ext (by omega))

/-- `read_slice` that fails after the length prefix leaves the cursor past the prefix. -/
theorem readSlice_error_moves :
    ReadOp.readSlice.call (withBytecode [0xFD#8, 0xFF#8]) =
      some (.error (.outOfBoundaries 65537), ⟨[0xFD#8, 0xFF#8], 2, 0, false⟩) := by
  decide

end AluVm
