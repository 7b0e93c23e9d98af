import AluVm.Cursor.WriteSpec

/-!
# What a read does

`ReadSpec size moved` is what a call of a read method that returns has done: it left the byte string as it was; on
`Ok v` it was off the end of data and passed `size v` bits; on an error it kept the bit offset and the flag, and the
byte offset up to `moved` bytes; it failed with `Err(Eof)` only if the flag was set. Every read method but `peek_u8`,
which leaves the cursor as it is (`call_peekU8`), meets it with the size of the field it returns
(`ReadOp.call_spec`). `read_slice` may fail after its
`read_u16` has passed the length prefix.
-/

namespace AluVm

open Cursor

/-- What a read that returns has done. -/
structure ReadSpec {α : Type} (size : α → Nat) (moved : Nat) (c c' : Cursor) (r : Except CursorError α) : Prop where
  bytecode : c'.bytecode = c.bytecode
  ok : ∀ v, r = .ok v → c.eof = false ∧ c'.consumed = c.consumed + size v
  error : ∀ e, r = .error e → c'.bitPos = c.bitPos ∧ c'.eof = c.eof ∧
    (c'.bytePos = c.bytePos ∨ c'.bytePos.val = c.bytePos.val + moved)
  eof : r = .error .eof → c.eof = true

theorem ReadSpec.map {α β : Type} {size : α → Nat} {size' : β → Nat} {moved : Nat} {c c' : Cursor}
    {r : Except CursorError α} (h : ReadSpec size moved c c' r) (f : α → β) (hf : ∀ v, size' (f v) = size v) :
    ReadSpec size' moved c c' (r.map f) := by
  refine ⟨h.bytecode, fun v hv => ?_, fun e he => h.error e ?_, fun he => h.eof ?_⟩
  · cases r with
    | error => cases hv
    | ok a =>
      cases hv
      rw [hf]
      exact h.ok a rfl
  all_goals cases r <;> simp_all [Except.map]

/-- A read that may not move on an error may move by any bound. -/
theorem ReadSpec.widen {α : Type} {size : α → Nat} {moved : Nat} {c c' : Cursor} {r : Except CursorError α}
    (h : ReadSpec size 0 c c' r) : ReadSpec size moved c c' r := by
  refine ⟨h.bytecode, h.ok, fun e he => ?_, h.eof⟩
  obtain ⟨h1, h2, h3⟩ := h.error e he
  exact ⟨h1, h2, .inl (h3.elim id fun h => Fin.ext (by simpa using h))⟩

theorem readSpec_of_eof {α : Type} {size : α → Nat} {moved : Nat} {c : Cursor} (he : c.eof = true) :
    ReadSpec size moved c c (.error .eof) :=
  ⟨rfl, (fun _ h => by cases h), fun _ _ => ⟨rfl, rfl, .inl rfl⟩, fun _ => he⟩

namespace Cursor

/-- A read of a value fixed before `inc_bytes(k)`. -/
theorem readSpec_of_incBytes {α : Type} {size : α → Nat} {v : α} {c c' : Cursor} {k : Fin 65536}
    {r : Except CursorError Unit} (h : incBytes c k = some (r, c')) (hs : size v = 8 * k.val) :
    ReadSpec size 0 c c' (putValue v (r, c')).1 := by
  refine ⟨(incBytes_bytecode h).1, fun a ha => ?_, fun e he => ?_, fun he => ?_⟩
  · cases r with
    | error => cases ha
    | ok u =>
      cases ha
      exact ⟨(incBytes_ok h).2.1, by rw [hs]; exact incBytes_consumed h⟩
  · cases r with
    | ok => cases he
    | error e' =>
      obtain ⟨rfl, -⟩ := incBytes_error h
      exact ⟨rfl, rfl, .inl rfl⟩
  · cases r with
    | ok => cases he
    | error e' =>
      cases he
      obtain ⟨-, -, ⟨he, -⟩ | ⟨-, ⟨⟩, -⟩⟩ := incBytes_error h
      exact he

theorem extract_spec {n : Fin 8} {c c' : Cursor} {r : Except CursorError (BitVec 8)}
    (h : extract c n = some (r, c')) : ReadSpec (fun _ => n.val) 0 c c' r := by
  unfold extract at h
  split_ifs at h with he
  · cases h; exact readSpec_of_eof he
  · simp only [Option.map_eq_some'] at h
    obtain ⟨byte, -, h⟩ := h
    have hi := incBits_consumed (c := c) (by simpa using he) n
    rw [putValue, Prod.mk.injEq] at h
    obtain ⟨rfl, rfl⟩ := h
    rw [hi.1]
    exact ⟨incBits_bytecode c n, fun v hv => ⟨by simpa using he, hi.2⟩, (fun e he' => by cases he'),
      fun h => by cases h⟩

theorem readBool_spec {c c' : Cursor} {r : Except CursorError Bool} (h : readBool c = some (r, c')) :
    ReadSpec (fun _ => 1) 0 c c' r := by
  unfold readBool at h
  split_ifs at h with he
  · cases h; exact readSpec_of_eof he
  · simp only [Option.map_eq_some'] at h
    obtain ⟨⟨r₁, c₁⟩, h₁, h⟩ := h
    cases h
    exact (extract_spec h₁).map (· == 1#8) fun _ => rfl

theorem readUN_spec {w : Width} {c c' : Cursor} {r : Except CursorError (BitVec w.bits)}
    (h : readUN w c = some (r, c')) : ReadSpec (fun _ => w.bits) 0 c c' r := by
  simp only [readUN, Option.bind_eq_some] at h
  obtain ⟨⟨r₁, c₁⟩, h₁, h⟩ := h
  have s := extract_spec h₁
  cases r₁ with
  | error e =>
    cases h
    exact ⟨s.bytecode, (fun _ h => by cases h), fun _ h => s.error _ (by cases h; rfl),
      fun h => s.eof (by cases h; rfl)⟩
  | ok b =>
    simp only [Option.map_eq_some'] at h
    obtain ⟨v, -, h⟩ := h
    cases h
    exact ⟨s.bytecode, fun _ _ => s.ok b rfl, (fun _ h => by cases h), fun h => by cases h⟩

theorem readU8_spec {c c' : Cursor} {r : Except CursorError (BitVec 8)} (h : readU8 c = some (r, c')) :
    ReadSpec (fun _ => 8) 0 c c' r := by
  unfold readU8 at h
  split_ifs at h with he
  · cases h; exact readSpec_of_eof he
  · simp only [Option.bind_eq_some, Option.map_eq_some'] at h
    obtain ⟨byte, -, ⟨r₁, c₁⟩, h₁, h⟩ := h
    cases h
    exact readSpec_of_incBytes h₁ rfl

theorem readLe16_spec {c c' : Cursor} {r : Except CursorError (BitVec 16)} (h : readLe16 c = some (r, c')) :
    ReadSpec (fun _ => 16) 0 c c' r := by
  unfold readLe16 at h
  split_ifs at h with he
  · cases h; exact readSpec_of_eof he
  · simp only [Option.bind_eq_some, Option.map_eq_some'] at h
    obtain ⟨buf, -, ⟨r₁, c₁⟩, h₁, h⟩ := h
    cases h
    exact readSpec_of_incBytes h₁ rfl

theorem readBytes32_spec {c c' : Cursor} {r : Except CursorError Bytes32} (h : readBytes32 c = some (r, c')) :
    ReadSpec (fun _ => 256) 0 c c' r := by
  unfold readBytes32 at h
  split_ifs at h with he
  · cases h; exact readSpec_of_eof he
  · by_cases hb : c.bytePos.val + 32 ≤ c.bytecode.length
    · simp only [dif_pos hb, Option.map_eq_some'] at h
      obtain ⟨⟨r₁, c₁⟩, h₁, h⟩ := h
      cases h
      exact readSpec_of_incBytes h₁ rfl
    · simp only [dif_neg hb] at h
      cases h

theorem readValue_spec {reg : RegisterSet} {c c' : Cursor} {r : Except CursorError Number}
    (h : readValue reg c = some (r, c')) : ReadSpec (fun _ => 8 * (reg.bits.val / 8)) 0 c c' r := by
  unfold readValue at h
  split_ifs at h with he
  · cases h; exact readSpec_of_eof he
  · simp only [Option.bind_eq_some, Option.map_eq_some'] at h
    obtain ⟨s, -, ⟨r₁, c₁⟩, h₁, h⟩ := h
    cases h
    exact readSpec_of_incBytes h₁ rfl

theorem range_eq_some {bs x : List (BitVec 8)} {s e : Nat} (h : range bs s e = some x) :
    s ≤ e ∧ e ≤ bs.length ∧ x = (bs.drop s).take (e - s) := by
  unfold range at h
  split_ifs at h with hr
  cases h
  exact ⟨hr.1, hr.2, rfl⟩

/-- `read_u16` that returns `Ok` was aligned and off the end of data, and moved two bytes on. -/
theorem readLe16_ok {c c' : Cursor} {w : BitVec 16} (h : readLe16 c = some (.ok w, c')) :
    c.eof = false ∧ c'.bytecode = c.bytecode ∧ c'.eof = false ∧ c'.bitPos = c.bitPos ∧
      c'.bytePos.val = c.bytePos.val + 2 := by
  unfold readLe16 at h
  split_ifs at h with he
  · simp at h
  simp only [Option.bind_eq_some, Option.map_eq_some'] at h
  obtain ⟨buf, -, ⟨r₁, c₁⟩, h₁, h⟩ := h
  rcases r₁ with e | u
  · simp at h
  cases u
  simp only [putValue_ok, Prod.mk.injEq] at h
  obtain ⟨-, rfl⟩ := h
  obtain ⟨he', hp, hb⟩ := incBytes_ok_pos h₁ (by decide)
  exact ⟨by simpa using he, (incBytes_bytecode h₁).1, by simpa [he'] using he, hb, hp⟩

theorem readSlice_spec {c c' : Cursor} {r : Except CursorError (List (BitVec 8))}
    (h : readSlice c = some (r, c')) : ReadSpec (fun s => 8 * (4 + s.length)) 2 c c' r := by
  unfold readSlice at h
  split_ifs at h with he
  · cases h; exact readSpec_of_eof he
  obtain ⟨⟨r₁, c₁⟩, h₁, h⟩ := Option.bind_eq_some.1 h
  cases r₁ with
  | error e =>
    cases h
    have s : ReadSpec _ 2 c c' _ := (readLe16_spec h₁).widen
    exact ⟨s.bytecode, (fun _ h => by cases h), fun _ h => s.error _ (by cases h; rfl),
      fun h => s.eof (by cases h; rfl)⟩
  | ok word =>
    obtain ⟨-, hbc₁, he₁, hb₁, hp₁⟩ := readLe16_ok h₁
    have s₁ := readLe16_spec h₁
    simp only [Option.bind_eq_some] at h
    obtain ⟨m, hm, ⟨r₂, c₂⟩, h₂, h⟩ := h
    have hm' := u16Add_eq_some hm
    cases r₂ with
    | error e =>
      cases h
      obtain ⟨rfl, -, hE⟩ := incBytes_error h₂
      refine ⟨hbc₁, (fun _ h => by cases h), fun _ _ => ⟨hb₁, by simpa [he₁] using he, .inr hp₁⟩, fun h => ?_⟩
      cases h
      rcases hE with ⟨h, -⟩ | ⟨-, ⟨⟩, -⟩
      exact absurd h (by simp [he₁])
    | ok u =>
      obtain ⟨x, hx, ⟨⟩⟩ := Option.map_eq_some'.1 h
      obtain ⟨-, hle, hx⟩ := range_eq_some hx
      refine ⟨(incBytes_bytecode h₂).1.trans hbc₁, fun v hv => ?_, (fun _ h => by cases h), fun h => by cases h⟩
      cases hv
      refine ⟨by simpa using he, ?_⟩
      rw [incBytes_consumed h₂, (s₁.ok word rfl).2, hm', hx]
      simp only [List.length_take, List.length_drop]
      omega

end Cursor

theorem mapResult_eq_some {α β : Type} {f : α → β} {x : Call α} {r : Except CursorError β} {c' : Cursor}
    (h : mapResult f x = some (r, c')) : ∃ r₀, x = some (r₀, c') ∧ r = r₀.map f := by
  simp only [mapResult, Option.map_eq_some'] at h
  obtain ⟨⟨r₀, c₀⟩, h₀, h⟩ := h
  simp only [Prod.mk.injEq] at h
  obtain ⟨rfl, rfl⟩ := h
  exact ⟨r₀, h₀, rfl⟩

theorem mapResult_eq_ok {α β : Type} {f : α → β} {x : Call α} {v : β} {c' : Cursor}
    (h : mapResult f x = some (.ok v, c')) : ∃ a, x = some (.ok a, c') ∧ v = f a := by
  obtain ⟨r₀, h₀, hr⟩ := mapResult_eq_some h
  cases r₀ with
  | error => cases hr
  | ok a => cases hr; exact ⟨a, h₀, rfl⟩

/-- A value fixed before `inc_bytes` and returned with `Ok`: the advance returned `Ok`. -/
theorem incBytes_putValue_ok {α : Type} {c c' : Cursor} {k : Fin 65536} {v w : α}
    (h : (incBytes c k).map (putValue v) = some (.ok w, c')) : v = w ∧ incBytes c k = some (.ok (), c') := by
  obtain ⟨⟨r, c₁⟩, hinc, h⟩ := Option.map_eq_some'.1 h
  cases r with
  | error => simp at h
  | ok u =>
    cases u
    simp only [putValue_ok, Prod.mk.injEq, Except.ok.injEq] at h
    obtain ⟨rfl, rfl⟩ := h
    exact ⟨rfl, hinc⟩

namespace ReadOp

/-- The bytes a failed read may have moved the byte offset by: `read_slice` its length prefix. -/
def moved : ReadOp → Nat
  | .readSlice => 2
  | _ => 0

/-- `peek_u8` leaves the cursor as it is. -/
theorem call_peekU8 {c c' : Cursor} {r : Except CursorError Field} (h : ReadOp.peekU8.call c = some (r, c')) :
    c' = c := by
  simp only [call, Option.map_eq_some'] at h
  obtain ⟨_, -, h⟩ := h
  exact (Prod.mk.inj h).2.symm

/-- Every read but `peek_u8` that returns meets the spec of the field it returns. -/
theorem call_spec {o : ReadOp} (ho : o ≠ .peekU8) {c c' : Cursor} {r : Except CursorError Field}
    (h : o.call c = some (r, c')) : ReadSpec Field.size o.moved c c' r := by
  cases o
  case peekU8 => exact absurd rfl ho
  all_goals obtain ⟨r₀, h₀, rfl⟩ := mapResult_eq_some h
  case readBool => exact ReadSpec.widen ((readBool_spec h₀).map .bool fun _ => rfl)
  case readU w => exact ReadSpec.widen ((readUN_spec h₀).map (.bits w) fun _ => rfl)
  case readU8 => exact ReadSpec.widen ((readU8_spec h₀).map .u8 fun _ => rfl)
  case readU16 => exact ReadSpec.widen ((readLe16_spec h₀).map .u16 fun _ => rfl)
  case readI16 => exact ReadSpec.widen ((readLe16_spec h₀).map .i16 fun _ => rfl)
  case readBytes32 => exact ReadSpec.widen ((readBytes32_spec h₀).map .bytes32 fun _ => rfl)
  case readSlice => exact (readSlice_spec h₀).map Field.slice fun _ => rfl
  case readValue reg => exact ReadSpec.widen ((readValue_spec h₀).map (.value reg) fun _ => rfl)

/-- No read changes the byte string. -/
theorem call_bytecode {o : ReadOp} {c c' : Cursor} {r : Except CursorError Field} (h : o.call c = some (r, c')) :
    c'.bytecode = c.bytecode := by
  by_cases ho : o = .peekU8
  · subst ho; rw [call_peekU8 h]
  · exact (call_spec ho h).bytecode

end ReadOp

end AluVm
