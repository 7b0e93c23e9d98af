import AluVm.Cursor.Safety
import AluVm.Cursor.Seek

/-!
# The end-of-data flag

Nothing clears the flag. The reads test it first: from a cursor with the flag set, every cursor that reads and seeks
reach has it set, and every read there fails with `Err(Eof)` and leaves the cursor as it is (`eof_absorbing_reads`).
The writes test it last, in `inc_bits` or `inc_bytes`, after they have stored: a write that returns keeps the flag and
the position and fails with `Err(Eof)`, or with `Err(OutOfBoundaries(len))` for a slice too long for its prefix
(`write_of_eof`, `eof_absorbing_writes`). A write need not return: after `write_u8` at byte `65535` of a 65536-byte
string has set the flag, `write_u16` stores at byte `65536` and panics (`writeU16_after_eof_panics`).

Only the flag makes a call fail with `Err(Eof)`: off the end of data every error is `Err(OutOfBoundaries)`. A read
fails with `Err(Eof)` exactly when the flag is set (`ReadOp.call_error_eof_iff`), and so does a write, but for a slice
too long for its prefix (`Field.write_error_eof_iff`).
-/

namespace AluVm

open Cursor

/-! ## Reads -/

theorem ReaderStep.eof {c c' : Cursor} (h : ReaderStep c c') (he : c.eof = true) : c'.eof = true := by
  cases h with
  | read o h =>
    rw [ReadOp.call_of_eof he, Option.some.injEq, Prod.mk.injEq] at h
    rw [← h.2, he]
  | seek => exact he

/-- Once the flag is set, every cursor that reads and seeks reach has it set, and every read there fails with
`Err(Eof)` and leaves the cursor as it is. -/
theorem eof_absorbing_reads {c c' : Cursor} (he : c.eof = true) (h : Relation.ReflTransGen ReaderStep c c') :
    c'.eof = true ∧ ∀ o : ReadOp, o.call c' = some (.error .eof, c') := by
  have he' : c'.eof = true := by
    induction h with
    | refl => exact he
    | tail _ hs ih => exact hs.eof ih
  exact ⟨he', fun o => ReadOp.call_of_eof he' o⟩

theorem eof_absorbing_after_seek :
    (⟨[1#8], 0, 0, true⟩ : Cursor).eof = true ∧
      ∀ o : ReadOp, o.call ⟨[1#8], 0, 0, true⟩ = some (.error .eof, ⟨[1#8], 0, 0, true⟩) :=
  eof_absorbing_reads (c := ⟨[1#8], 65535, 0, true⟩) rfl (.single (ReaderStep.seek _ 0))

/-! ## Writes -/

namespace Cursor

/-- `inc_bytes` with the flag set fails with `Err(Eof)` and leaves the cursor as it is, if it returns. -/
theorem incBytes_at_eof {c c' : Cursor} {n : Fin 65536} {r : Except CursorError Unit} (he : c.eof = true)
    (h : incBytes c n = some (r, c')) : r = .error .eof ∧ c' = c := by
  by_cases h0 : c.bitPos.val = 0
  · rw [incBytes_of_eof h0 he, Option.some.injEq, Prod.mk.injEq] at h
    exact ⟨h.1.symm, h.2.symm⟩
  · rw [incBytes_of_bitPos h0] at h
    cases h

/-- A store followed by `inc_bytes` with the flag set: only the byte string changes, and the result is `Err(Eof)`. -/
theorem incBytes_stored_at_eof {c c' : Cursor} {bs : List (BitVec 8)} {n : Fin 65536} {r : Except CursorError Unit}
    (he : c.eof = true) (h : incBytes { c with bytecode := bs } n = some (r, c')) :
    c' = { c with bytecode := c'.bytecode } ∧ r = .error .eof := by
  obtain ⟨rfl, rfl⟩ := incBytes_at_eof (c := { c with bytecode := bs }) he h
  exact ⟨rfl, rfl⟩

theorem writeLe16_at_eof {v : BitVec 16} {c c' : Cursor} {r : Except CursorError Unit} (he : c.eof = true)
    (h : writeLe16 v c = some (r, c')) : c' = { c with bytecode := c'.bytecode } ∧ r = .error .eof := by
  obtain ⟨bs, -, h⟩ := Option.bind_eq_some.1 h
  obtain ⟨bs', -, h⟩ := Option.bind_eq_some.1 h
  exact incBytes_stored_at_eof he h

/-- `write_u8` at byte `65535`, aligned and off the end of data, stores the byte and sets the flag. -/
theorem writeU8_at_last {v : BitVec 8} {c : Cursor} (hp : c.bytePos.val = 65535) (h0 : c.bitPos.val = 0)
    (he : c.eof = false) (hl : 65535 < c.bytecode.length) :
    writeU8 v c = some (.ok (), { c with bytecode := c.bytecode.set 65535 v, eof := true }) := by
  simp only [writeU8, setByte, hp, if_pos hl, Option.some_bind]
  rw [incBytes_of_aligned (c := { c with bytecode := c.bytecode.set 65535 v }) h0 he]
  simp [incBytesInner, hp]

/-- `write_u16` and `write_i16` panic when the byte string ends before the second byte. -/
theorem writeLe16_past_end {v : BitVec 16} {c : Cursor} (hl : c.bytecode.length ≤ c.bytePos.val + 1) :
    writeLe16 v c = none := by
  unfold writeLe16 setByte
  split_ifs <;> simp_all

end Cursor

/-- A write on a cursor with the flag set changes at most the byte string, and returns `Err(Eof)`, or
`Err(OutOfBoundaries(len))` for a slice too long for its prefix. -/
theorem Field.write_of_eof {f : Field} {c c' : Cursor} {r : Except CursorError Unit} (he : c.eof = true)
    (h : f.write c = some (r, c')) : c' = { c with bytecode := c'.bytecode } ∧
      (r = .error .eof ∨ ∃ v, f = .slice v ∧ 65535 ≤ v.length ∧ r = .error (.outOfBoundaries v.length)) := by
  cases f with
  | bool b | bits w v =>
    obtain ⟨bs, -, h⟩ := Option.map_eq_some'.1 h
    rw [incBits_of_eof (c := { c with bytecode := bs }) he, Prod.mk.injEq] at h
    exact ⟨by rw [← h.2], .inl h.1.symm⟩
  | u8 v | bytes32 v =>
    obtain ⟨bs, -, h⟩ := Option.bind_eq_some.1 h
    exact (incBytes_stored_at_eof he h).imp_right .inl
  | u16 v | i16 v => exact (writeLe16_at_eof he h).imp_right .inl
  | slice v =>
    simp only [Field.write, writeSlice] at h
    split_ifs at h with hv
    · simp only [Option.some.injEq, Prod.mk.injEq] at h
      exact ⟨by rw [← h.2], .inr ⟨v, rfl, hv, h.1.symm⟩⟩
    · obtain ⟨⟨r₁, c₁⟩, h₁, h⟩ := Option.bind_eq_some.1 h
      obtain ⟨hc₁, rfl⟩ := writeLe16_at_eof he h₁
      simp only [Option.some.injEq, Prod.mk.injEq] at h
      rw [← h.2]
      exact ⟨hc₁, .inl h.1.symm⟩
  | value reg n =>
    simp only [Field.write, writeValue] at h
    split_ifs at h
    obtain ⟨bs, -, h⟩ := Option.bind_eq_some.1 h
    exact (incBytes_stored_at_eof he h).imp_right .inl

theorem WriterStep.eof {c c' : Cursor} (h : WriterStep c c') (he : c.eof = true) : c'.eof = true := by
  cases h with
  | write f h => rw [(Field.write_of_eof he h).1]; exact he
  | seek => exact he

/-- Once the flag is set, every cursor that writes and seeks reach has it set, and every write there that returns
changes at most the byte string and fails. -/
theorem eof_absorbing_writes {c c' : Cursor} (he : c.eof = true) (h : Relation.ReflTransGen WriterStep c c') :
    c'.eof = true ∧ ∀ (f : Field) (r : Except CursorError Unit) (c'' : Cursor), f.write c' = some (r, c'') →
      c'' = { c' with bytecode := c''.bytecode } ∧
        (r = .error .eof ∨ ∃ v, f = .slice v ∧ 65535 ≤ v.length ∧ r = .error (.outOfBoundaries v.length)) := by
  have he' : c'.eof = true := by
    induction h with
    | refl => exact he
    | tail _ hs ih => exact hs.eof ih
  exact ⟨he', fun _ _ _ => Field.write_of_eof he'⟩

theorem eof_absorbing_after_write :
    (⟨[1#8], 0, 0, true⟩ : Cursor).eof = true ∧
      ∀ (f : Field) (r : Except CursorError Unit) (c'' : Cursor), f.write ⟨[1#8], 0, 0, true⟩ = some (r, c'') →
        c'' = { (⟨[1#8], 0, 0, true⟩ : Cursor) with bytecode := c''.bytecode } ∧
          (r = .error .eof ∨ ∃ v, f = .slice v ∧ 65535 ≤ v.length ∧ r = .error (.outOfBoundaries v.length)) :=
  eof_absorbing_writes (c := ⟨[1#8], 65535, 0, true⟩) rfl (.single (WriterStep.seek _ 0))

/-- `write_u8` at byte `65535` of 65536 zero bytes sets the flag, and `write_u16` there then panics. -/
theorem writeU16_after_eof_panics :
    Relation.ReflTransGen WriterStep (withBytecode (List.replicate 65536 0#8))
        ⟨List.replicate 65536 0#8, 65535, 0, true⟩ ∧
      (Field.u16 0#16).write ⟨List.replicate 65536 0#8, 65535, 0, true⟩ = none := by
  have hl : (List.replicate 65536 0#8).length = 65536 := List.length_replicate _ _
  have hw : (Field.u8 0#8).write ⟨List.replicate 65536 0#8, 65535, 0, false⟩ =
      some (.ok (), ⟨List.replicate 65536 0#8, 65535, 0, true⟩) := by
    have h := writeU8_at_last (v := 0#8) (c := ⟨List.replicate 65536 0#8, 65535, 0, false⟩) rfl rfl rfl
      (by rw [hl]; decide)
    dsimp only at h
    rwa [List.set_replicate_self] at h
  exact ⟨.tail (.single (WriterStep.seek _ 65535)) (WriterStep.write (.u8 0#8) hw),
    writeLe16_past_end (v := 0#16) (c := ⟨List.replicate 65536 0#8, 65535, 0, true⟩) (by dsimp only; rw [hl]; decide)⟩

/-! ## Which error -/

/-- A read fails with `Err(Eof)` exactly when the flag is set; off the end of data its only error is
`Err(OutOfBoundaries)`. -/
theorem ReadOp.call_error_eof_iff {o : ReadOp} {c c' : Cursor} {e : CursorError}
    (h : o.call c = some (.error e, c')) : e = .eof ↔ c.eof = true := by
  refine ⟨fun he => ?_, fun he => ?_⟩
  · subst he
    by_cases ho : o = .peekU8
    · subst ho
      cases he : c.eof
      · simp [call, Cursor.peekU8, he, Except.map] at h
      · rfl
    · exact (call_spec ho h).eof rfl
  · rw [call_of_eof he] at h
    cases h
    rfl

theorem readSlice_error_eof_iff :
    ReadOp.readSlice.call (withBytecode [0xFD#8, 0xFF#8]) =
        some (.error (.outOfBoundaries 65537), ⟨[0xFD#8, 0xFF#8], 2, 0, false⟩) ∧
      (CursorError.outOfBoundaries 65537 = .eof ↔ (withBytecode [0xFD#8, 0xFF#8]).eof = true) :=
  ⟨by decide,
    @ReadOp.call_error_eof_iff .readSlice (withBytecode [0xFD#8, 0xFF#8]) ⟨[0xFD#8, 0xFF#8], 2, 0, false⟩ _ (by decide)⟩

/-- A write fails with `Err(Eof)` exactly when the flag is set, unless it writes a slice too long for its prefix,
which fails with `Err(OutOfBoundaries(len))` before the flag is looked at. -/
theorem Field.write_error_eof_iff {f : Field} {c c' : Cursor} {e : CursorError}
    (h : f.write c = some (.error e, c')) : e = .eof ↔ c.eof = true ∧ ∀ v, f = .slice v → v.length < 65535 := by
  refine ⟨fun he => ⟨(write_spec h).eof (he ▸ rfl), ?_⟩, fun ⟨he, hv⟩ => ?_⟩
  · rintro v rfl
    refine Nat.lt_of_not_le fun hl => ?_
    simp only [write, writeSlice, if_pos hl, Option.some.injEq, Prod.mk.injEq, Except.error.injEq] at h
    exact absurd (h.1.trans he) (by simp)
  · rcases (write_of_eof he h).2 with h' | ⟨v, rfl, hl, -⟩
    · cases h'
      rfl
    · exact absurd (hv v rfl) (by omega)

theorem writeU8_error_eof_iff :
    (Field.u8 7#8).write ⟨[0#8], 0, 0, true⟩ = some (.error .eof, ⟨[7#8], 0, 0, true⟩) ∧
      (CursorError.eof = .eof ↔
        (⟨[0#8], 0, 0, true⟩ : Cursor).eof = true ∧ ∀ v, Field.u8 7#8 = .slice v → v.length < 65535) :=
  ⟨by decide, @Field.write_error_eof_iff (.u8 7#8) ⟨[0#8], 0, 0, true⟩ ⟨[7#8], 0, 0, true⟩ _ (by decide)⟩

end AluVm
