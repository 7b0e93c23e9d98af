import AluVm.Cursor.Decode

/-!
# The writer lays down the spec's encoding

The writer's side of `runReads_of_encode`, slices and register values included:

- a write that returns `Ok` stores inside the byte string, up to where the encoding of its field ends
  (`Field.encode_le_of_write`);
- from zero bits, with a bit field inside one byte, it lays down the encoding of its field from where the cursor is
  (`Field.write_lays`): `write_slice` its `u16` length prefix and its bytes (`bitAt_after_writeSlice`), `write_value`
  the bytes of the value reshaped to the register (`bitAt_after_writeValue`);
- a run of writes from zero bits leaves a byte string that holds the encoding of each field at the bits the cursor
  reached it at (`runWrites_holds`), each field `size` bits after the one before, so after a slice two bytes further
  on than its encoding ends.

Only bit fields are constrained (`Field.InByte`): a write of any other field that returns `Ok` was where it lays its
bytes down, and `write_value` writes a signed value or one wider than the register as well.
-/

namespace AluVm

open Cursor

/-! ## Where a write can lay its field down -/

namespace Field

/-- A bit field sits inside one byte from absolute bit `k`; any other field may sit anywhere. -/
def InByte : Field → Nat → Prop
  | .bits w _, k => k % 8 + w.bits ≤ 8
  | .bool _, _ | .u8 _, _ | .u16 _, _ | .i16 _, _ | .bytes32 _, _ | .slice _, _ | .value _ _, _ => True

instance (f : Field) (k : Nat) : Decidable (f.InByte k) :=
  match f with
  | .bits _ _ => inferInstanceAs (Decidable (_ ≤ _))
  | .bool _ | .u8 _ | .u16 _ | .i16 _ | .bytes32 _ | .slice _ | .value _ _ => inferInstanceAs (Decidable True)

/-- The encoding of a field fits in the bits its call passes; a slice's leaves two bytes over. -/
theorem length_encode_le (f : Field) : f.encode.length ≤ f.size := by
  cases f with
  | slice v => simp only [encode, size, List.length_append, List.length_ofFn, length_bytesBits]; omega
  | _ => exact (length_encode fun _ h => by cases h).le

end Field

/-- Every bit field of a list sits inside one byte, the first field at bit `k` and each `size` bits after the one
before. -/
def InByteRun : Nat → List Field → Prop
  | _, [] => True
  | k, f :: fs => f.InByte k ∧ InByteRun (k + f.size) fs

instance decInByteRun : (k : Nat) → (fs : List Field) → Decidable (InByteRun k fs)
  | _, [] => isTrue trivial
  | k, f :: fs =>
    have := decInByteRun (k + f.size) fs
    inferInstanceAs (Decidable (f.InByte k ∧ InByteRun (k + f.size) fs))

/-! ## Slices and register values -/

namespace Cursor

/-- A `write_slice` that returns `Ok` wrote the length prefix with `write_u16` and copied the bytes after it; the
final `inc_bytes` stored nothing. -/
theorem writeSlice_ok {v : List (BitVec 8)} {c c' : Cursor} (h : writeSlice v c = some (.ok (), c')) :
    ∃ c₁, writeLe16 (BitVec.ofNat 16 v.length) c = some (.ok (), c₁) ∧
      copyFromSlice c₁.bytecode c₁.bytePos.val (c₁.bytePos.val + v.length) v = some c'.bytecode := by
  simp only [writeSlice] at h
  split_ifs at h
  · simp at h
  obtain ⟨⟨r₁, c₁⟩, h₁, h⟩ := Option.bind_eq_some.1 h
  rcases r₁ with e | ⟨⟩
  · simp at h
  obtain ⟨bs, hbs, h⟩ := Option.bind_eq_some.1 h
  obtain ⟨m, -, hinc⟩ := Option.bind_eq_some.1 h
  exact ⟨c₁, h₁, by rw [(incBytes_bytecode hinc).1]; exact hbs⟩

/-- `write_slice` lays down the little-endian length and then the bytes. -/
theorem bitAt_after_writeSlice {v : List (BitVec 8)} {c c' : Cursor} (h : writeSlice v c = some (.ok (), c'))
    {i : Nat} (hi : i < (Field.slice v).encode.length) :
    bitAt c'.bytecode (c.consumed + i) = (Field.slice v).encode.getD i false := by
  obtain ⟨c₁, h₁, hbs⟩ := writeSlice_ok h
  obtain ⟨h0, he, -, -, hp₁⟩ := writeLe16_ok h₁
  have hc : c.consumed = 8 * c.bytePos.val := consumed_of_aligned h0 he
  simp only [Field.encode, List.length_append, List.length_ofFn, length_bytesBits] at hi ⊢
  by_cases h16 : i < 16
  · rw [(unchanged_copyFromSlice hbs).2 _ (.inl (by omega)), bitAt_after_writeLe16 h₁ h16,
      List.getD_append _ _ _ _ (by rw [List.length_ofFn]; exact h16), getD_ofFn _ h16]
  · rw [bitAt_copyFromSlice hbs (by omega) (by omega),
      List.getD_append_right _ _ _ _ (by rw [List.length_ofFn]; omega), List.length_ofFn, getD_bytesBits,
      show c.consumed + i - 8 * c₁.bytePos.val = i - 16 by omega]

/-- `write_value` lays down the bytes of the value reshaped to the register, inside the byte string. -/
theorem bitAt_after_writeValue {reg : RegisterSet} {n : Number} {c c' : Cursor}
    (h : writeValue reg n c = some (.ok (), c')) :
    c.consumed + (Field.value reg n).encode.length ≤ 8 * c'.bytecode.length ∧
      ∀ i < (Field.value reg n).encode.length,
        bitAt c'.bytecode (c.consumed + i) = (Field.value reg n).encode.getD i false := by
  simp only [writeValue] at h
  split_ifs at h
  obtain ⟨bs, hbs, hinc⟩ := Option.bind_eq_some.1 h
  obtain ⟨h0, he, -⟩ := incBytes_ok hinc
  have hcb : c'.bytecode = bs := (incBytes_bytecode hinc).1
  simp only [Number.len] at hbs
  obtain ⟨hl, -, hend, -⟩ := length_copyFromSlice hbs
  simp only [consumed_of_aligned (c := c) h0 he, Field.encode, length_bytesBits, hcb]
  exact ⟨by omega, fun i hi => by
    rw [bitAt_copyFromSlice hbs (by omega) (by omega), Nat.add_sub_cancel_left, getD_bytesBits]⟩

end Cursor

/-! ## One write -/

/-- A write that returns `Ok` stores inside the byte string: the encoding of its field, from where the cursor is, ends
inside it. -/
theorem Field.encode_le_of_write {f : Field} {c c' : Cursor} (h : f.write c = some (.ok (), c'))
    (hf : f.InByte c.consumed) : c.consumed + f.encode.length ≤ 8 * c.bytecode.length := by
  have hc : c.consumed = 8 * c.bytePos.val + c.bitPos.val := consumed_of_not_eof ((write_spec h).ok rfl).1
  have hl : c'.bytecode.length = c.bytecode.length := (write_spec h).frame.1
  cases f with
  | bool b | bits w v =>
    obtain ⟨bs, hbs, -⟩ := Option.map_eq_some'.1 h
    have hp := (orByte_eq_some hbs).1
    simp only [InByte, encode, List.length_singleton, List.length_ofFn] at hf ⊢
    omega
  | u8 v =>
    obtain ⟨bs, hbs, hinc⟩ := Option.bind_eq_some.1 h
    have h0 : c.bitPos.val = 0 := (incBytes_ok hinc).1
    have hp := (setByte_eq_some hbs).1
    simp only [encode, List.length_ofFn]
    omega
  | u16 v | i16 v =>
    have h0 : c.bitPos.val = 0 := (writeLe16_ok h).1
    simp only [write, writeU16, writeI16, writeLe16, Option.bind_eq_some] at h
    obtain ⟨bs₁, h₁, bs₂, h₂, -⟩ := h
    obtain ⟨-, rfl⟩ := setByte_eq_some h₁
    have hp := (setByte_eq_some h₂).1
    simp only [encode, List.length_ofFn, List.length_set] at hp ⊢
    omega
  | bytes32 v =>
    obtain ⟨bs, hbs, hinc⟩ := Option.bind_eq_some.1 h
    have h0 : c.bitPos.val = 0 := (incBytes_ok hinc).1
    have hp := (length_copyFromSlice hbs).2.2.1
    simp only [encode, length_bytesBits, v.length_eq]
    omega
  | slice v =>
    obtain ⟨c₁, h₁, hbs⟩ := writeSlice_ok h
    obtain ⟨h0, -, -, -, hp₁⟩ := writeLe16_ok h₁
    obtain ⟨hl', -, hp, -⟩ := length_copyFromSlice hbs
    simp only [encode, List.length_append, List.length_ofFn, length_bytesBits]
    omega
  | value reg n => exact hl ▸ (bitAt_after_writeValue h).1

/-- A write that returns `Ok` from zero bits, with a bit field inside one byte, lays down the encoding of its field
from where the cursor is. -/
theorem Field.write_lays {f : Field} {c c' : Cursor} (h : f.write c = some (.ok (), c')) (hf : f.InByte c.consumed)
    (hz : ZeroFrom c.bytecode c.consumed) {i : Nat} (hi : i < f.encode.length) :
    bitAt c'.bytecode (c.consumed + i) = f.encode.getD i false := by
  have hs : i < f.size := hi.trans_le f.length_encode_le
  cases f with
  | bits w v =>
    have hc : c.consumed = 8 * c.bytePos.val + c.bitPos.val := consumed_of_not_eof ((write_spec h).ok rfl).1
    exact write_encode h (by simp only [InByte, Within] at hf ⊢; omega) (fun _ h => by cases h) hz hs
  | slice v => exact bitAt_after_writeSlice h hi
  | value reg n => exact (bitAt_after_writeValue h).2 i hi
  | _ => exact write_encode h trivial (fun _ h => by cases h) hz hs

/-! ## Runs -/

/-- A run of writes that all return `Ok` from zero bits, with every bit field inside one byte, leaves a byte string
that holds the encoding of each field at the bits the cursor reached it at, slices and register values included. -/
theorem runWrites_holds : ∀ {c : Cursor} {fs : List Field} {tr : List (Except CursorError Unit × Cursor)},
    runWrites c fs = some tr → (∀ x ∈ tr, x.1 = .ok ()) → InByteRun c.consumed fs → ZeroFrom c.bytecode c.consumed →
      Holds (lastCursor c tr).bytecode c.consumed fs
  | _, [], _, _, _, _, _ => trivial
  | c, f :: fs, tr, h, hok, ⟨hf, hfs⟩, hz => by
    obtain ⟨r, c', tr', h₁, h₂, rfl⟩ := runWrites_cons_eq_some h
    obtain rfl : r = .ok () := hok _ (List.mem_cons_self _ _)
    have hok' : ∀ x ∈ tr', x.1 = .ok () := fun x hx => hok x (List.mem_cons_of_mem _ hx)
    have hc : c'.consumed = c.consumed + f.size := ((Field.write_spec h₁).ok rfl).2
    obtain ⟨⟨hlen, hsame⟩, -⟩ := runWrites_sameBelow h₂ hok'
    have hl := f.length_encode_le
    rw [lastCursor_cons]
    refine ⟨?_, fun i hi => ?_, ?_⟩
    · rw [hlen, (Field.write_spec h₁).frame.1]
      exact Field.encode_le_of_write h₁ hf
    · rw [hsame _ (by omega), Field.write_lays h₁ hf hz hi]
    · rw [← hc]
      exact runWrites_holds h₂ hok' (by rw [hc]; exact hfs) (Field.write_zeroFrom h₁ hz)

theorem runWrites_holds_slice_value :
    Holds (lastCursor (withBytecode (List.replicate 8 0#8))
        ((runWrites (withBytecode (List.replicate 8 0#8))
          [.bits .u3 5#3, .bool true, .bits .u4 3#4, .slice [7#8], .value ⟨16⟩ ⟨[1#8, 2#8], false⟩]).getD [])).bytecode
      (withBytecode (List.replicate 8 0#8)).consumed
      [.bits .u3 5#3, .bool true, .bits .u4 3#4, .slice [7#8], .value ⟨16⟩ ⟨[1#8, 2#8], false⟩] :=
  runWrites_holds (by decide) (by decide) (by decide) (zeroFrom_replicate 8)

end AluVm
