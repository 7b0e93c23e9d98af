import AluVm.Cursor.Basic

/-!
# What one advance can do

`_inc_bytes_inner`, `inc_bits` and `inc_bytes` are the only code that moves the cursor. Each either moves it, sets the
end-of-data flag at byte `65535`, or fails with the cursor as it was (`incBytesInner_error`, `incBytes_error`). They
never touch the byte string, and commute with replacing it (`incBytes_bytecode`, `incBits_bytecode`).

`bitOffset` is the absolute bit offset `8 * pos() + bit offset`; `consumed` also counts the byte at `65535` once the
flag is set. Every advance that returns `Ok` moves `consumed` by exactly the bits it was asked for
(`incBytesInner_consumed`, `incBits_consumed`, `incBytes_ok`), also the one that sets the flag.
-/

namespace AluVm.Cursor

/-- The absolute bit offset, `8 * pos() + bit offset`. -/
def bitOffset (c : Cursor) : Nat := 8 * c.bytePos.val + c.bitPos.val

/-- The bits passed: the bit offset, and the byte at `65535` once the end-of-data flag is set. -/
def consumed (c : Cursor) : Nat := c.bitOffset + if c.eof then 8 else 0

@[simp] theorem withBytecode_bytecode (bs : List (BitVec 8)) : (withBytecode bs).bytecode = bs := rfl

@[simp] theorem withBytecode_consumed (bs : List (BitVec 8)) : (withBytecode bs).consumed = 0 := rfl

@[simp] theorem seek_bytecode (c : Cursor) (p : Fin 65536) : (c.seek p).bytecode = c.bytecode := rfl

@[simp] theorem seek_bitPos (c : Cursor) (p : Fin 65536) : (c.seek p).bitPos = c.bitPos := rfl

@[simp] theorem seek_eof (c : Cursor) (p : Fin 65536) : (c.seek p).eof = c.eof := rfl

@[simp] theorem putValue_snd {α : Type} (v : α) (x : Except CursorError Unit × Cursor) : (putValue v x).2 = x.2 := rfl

@[simp] theorem putValue_ok {α : Type} (v : α) (c : Cursor) : putValue v (.ok (), c) = (.ok v, c) := rfl

@[simp] theorem putValue_error {α : Type} (v : α) (e : CursorError) (c : Cursor) :
    putValue v (.error e, c) = (.error e, c) := rfl

/-! ## `_inc_bytes_inner` -/

/-- The three things `_inc_bytes_inner` can do: set the flag at `65535`, move, or fail. -/
theorem incBytesInner_cases (c : Cursor) (n : Fin 65536) :
    (n.val = 1 ∧ c.bytePos.val = 65535 ∧ incBytesInner c n = (.ok (), { c with eof := true })) ∨
    (∃ h : c.bytePos.val + n.val < 65536, ¬(n.val = 1 ∧ c.bytePos.val = 65535) ∧
      incBytesInner c n = (.ok (), { c with bytePos := ⟨_, h⟩ })) ∨
    (65536 ≤ c.bytePos.val + n.val ∧ ¬(n.val = 1 ∧ c.bytePos.val = 65535) ∧
      incBytesInner c n = (.error (.outOfBoundaries (c.bytePos.val + n.val)), c)) := by
  unfold incBytesInner
  split_ifs with h1 h2
  · exact .inl ⟨h1.1, h1.2, rfl⟩
  · exact .inr (.inl ⟨h2, h1, rfl⟩)
  · exact .inr (.inr ⟨by omega, h1, rfl⟩)

@[simp] theorem incBytesInner_bytecode (c : Cursor) (n : Fin 65536) :
    (incBytesInner c n).2.bytecode = c.bytecode := by
  rcases incBytesInner_cases c n with ⟨-, -, h⟩ | ⟨_, -, h⟩ | ⟨-, -, h⟩ <;> rw [h]

@[simp] theorem incBytesInner_bitPos (c : Cursor) (n : Fin 65536) : (incBytesInner c n).2.bitPos = c.bitPos := by
  rcases incBytesInner_cases c n with ⟨-, -, h⟩ | ⟨_, -, h⟩ | ⟨-, -, h⟩ <;> rw [h]

/-- Replacing the byte string commutes with an advance. -/
theorem incBytesInner_bytecode_eq (c : Cursor) (n : Fin 65536) (bs : List (BitVec 8)) :
    incBytesInner { c with bytecode := bs } n =
      ((incBytesInner c n).1, { (incBytesInner c n).2 with bytecode := bs }) := by
  unfold incBytesInner; split_ifs <;> rfl

/-- A failed advance leaves the cursor as it was and names the position it would have reached. -/
theorem incBytesInner_error {c c' : Cursor} {n : Fin 65536} {e : CursorError}
    (h : incBytesInner c n = (.error e, c')) :
    e = .outOfBoundaries (c.bytePos.val + n.val) ∧ c' = c ∧ 65536 ≤ c.bytePos.val + n.val := by
  rcases incBytesInner_cases c n with ⟨-, -, h'⟩ | ⟨_, -, h'⟩ | ⟨hn, -, h'⟩ <;> rw [h'] at h <;>
    simp only [Prod.mk.injEq, reduceCtorEq, false_and, Except.error.injEq] at h
  exact ⟨h.1.symm, h.2.symm, hn⟩

/-- An advance that returns `Ok` moves the byte offset by `n`, or sets the flag at `65535`. -/
theorem incBytesInner_ok_cases {c c' : Cursor} {n : Fin 65536} (h : incBytesInner c n = (.ok (), c')) :
    c'.bytecode = c.bytecode ∧ c'.bitPos = c.bitPos ∧ ((c'.eof = c.eof ∧ c'.bytePos.val = c.bytePos.val + n.val) ∨
      (c'.eof = true ∧ n.val = 1 ∧ c.bytePos.val = 65535 ∧ c'.bytePos = c.bytePos)) := by
  rcases incBytesInner_cases c n with ⟨h1, h2, h'⟩ | ⟨_, -, h'⟩ | ⟨-, -, h'⟩ <;> rw [h'] at h <;>
    simp only [Prod.mk.injEq, reduceCtorEq, false_and, true_and] at h <;> subst h
  · exact ⟨rfl, rfl, .inr ⟨rfl, h1, h2, rfl⟩⟩
  · exact ⟨rfl, rfl, .inl ⟨rfl, rfl⟩⟩

/-- Off the end of data, an advance that returns `Ok` passes `8 * n` bits. -/
theorem incBytesInner_consumed {c c' : Cursor} {n : Fin 65536} (he : c.eof = false)
    (h : incBytesInner c n = (.ok (), c')) : c'.consumed = c.consumed + 8 * n.val := by
  obtain ⟨-, hb, (⟨he', hp⟩ | ⟨he', hn, -, hp⟩)⟩ := incBytesInner_ok_cases h <;>
    simp only [consumed, bitOffset, he', he, hb, hp] <;> simp <;> omega

/-- An advance within the address space, or by one byte from `65535`, returns `Ok`. -/
theorem incBytesInner_ok {c : Cursor} {n : Fin 65536}
    (h : c.bytePos.val + n.val < 65536 ∨ (n.val = 1 ∧ c.bytePos.val = 65535)) :
    (incBytesInner c n).1 = .ok () := by
  rcases incBytesInner_cases c n with ⟨-, -, h'⟩ | ⟨_, -, h'⟩ | ⟨hn, hne, -⟩
  · rw [h']
  · rw [h']
  · omega

/-- An advance within the address space moves the byte offset. -/
theorem incBytesInner_move {c : Cursor} {n : Fin 65536} (h : c.bytePos.val + n.val < 65536) :
    incBytesInner c n = (.ok (), { c with bytePos := ⟨_, h⟩ }) := by
  rcases incBytesInner_cases c n with ⟨h1, h2, -⟩ | ⟨_, -, h'⟩ | ⟨h3, -, -⟩
  · omega
  · exact h'
  · omega

/-! ## `inc_bits` -/

/-- `inc_bits` off the end of data: the bit offset modulo 8, and the carry to `_inc_bytes_inner`. -/
theorem incBits_of_not_eof {c : Cursor} (h : c.eof = false) (n : Fin 8) :
    incBits c n = incBytesInner { c with bitPos := ⟨(c.bitPos.val + n.val) % 8, Nat.mod_lt _ (by decide)⟩ }
      ⟨(c.bitPos.val + n.val) / 8, carry_lt c.bitPos n⟩ := by
  simp [incBits, h]

theorem incBits_of_eof {c : Cursor} (h : c.eof = true) (n : Fin 8) : incBits c n = (.error .eof, c) := by
  simp [incBits, h]

@[simp] theorem incBits_bytecode (c : Cursor) (n : Fin 8) : (incBits c n).2.bytecode = c.bytecode := by
  cases h : c.eof
  · simp [incBits_of_not_eof h]
  · simp [incBits_of_eof h]

theorem incBits_bytecode_eq (c : Cursor) (n : Fin 8) (bs : List (BitVec 8)) :
    incBits { c with bytecode := bs } n = ((incBits c n).1, { (incBits c n).2 with bytecode := bs }) := by
  rcases Bool.eq_false_or_eq_true c.eof with h | h
  · rw [incBits_of_eof (c := { c with bytecode := bs }) h, incBits_of_eof h]
  · rw [incBits_of_not_eof (c := { c with bytecode := bs }) h, incBits_of_not_eof h]
    exact incBytesInner_bytecode_eq { c with bitPos := ⟨(c.bitPos.val + n.val) % 8, Nat.mod_lt _ (by decide)⟩ } _ bs

/-- `inc_bits` after a store goes as it would over any other byte string. -/
theorem incBits_rebase {c c' : Cursor} {bs : List (BitVec 8)} {n : Fin 8} {r : Except CursorError Unit}
    (h : incBits { c with bytecode := bs } n = (r, c')) (B : List (BitVec 8)) :
    incBits { c with bytecode := B } n = (r, { c' with bytecode := B }) := by
  rw [incBits_bytecode_eq, Prod.mk.injEq] at h
  rw [incBits_bytecode_eq, ← h.1, ← h.2]

/-- Off the end of data, `inc_bits` returns `Ok` and passes `n` bits, carrying into the byte offset. -/
theorem incBits_consumed {c : Cursor} (h : c.eof = false) (n : Fin 8) :
    (incBits c n).1 = .ok () ∧ (incBits c n).2.consumed = c.consumed + n.val := by
  rw [incBits_of_not_eof h]
  set c₁ : Cursor := { c with bitPos := ⟨(c.bitPos.val + n.val) % 8, Nat.mod_lt _ (by decide)⟩ }
  have hok := incBytesInner_ok (c := c₁) (n := ⟨(c.bitPos.val + n.val) / 8, carry_lt c.bitPos n⟩)
    (by simp only [c₁]; omega)
  refine ⟨hok, ?_⟩
  rw [incBytesInner_consumed (c := c₁) h (Prod.ext hok rfl)]
  simp only [consumed, bitOffset, c₁, h]; omega

/-! ## `inc_bytes` -/

theorem incBytes_of_bitPos {c : Cursor} (h : c.bitPos.val ≠ 0) (n : Fin 65536) : incBytes c n = none := by
  simp [incBytes, h]

theorem incBytes_of_eof {c : Cursor} (h0 : c.bitPos.val = 0) (h : c.eof = true) (n : Fin 65536) :
    incBytes c n = some (.error .eof, c) := by
  simp [incBytes, h, h0]

theorem incBytes_of_aligned {c : Cursor} (h0 : c.bitPos.val = 0) (h : c.eof = false) (n : Fin 65536) :
    incBytes c n = some (incBytesInner c n) := by
  simp [incBytes, h, h0]

theorem incBytes_bytecode_eq (c : Cursor) (n : Fin 65536) (bs : List (BitVec 8)) :
    incBytes { c with bytecode := bs } n = (incBytes c n).map fun x => (x.1, { x.2 with bytecode := bs }) := by
  unfold incBytes
  split_ifs
  · rfl
  · rfl
  · simp only [Option.map_some', incBytesInner_bytecode_eq]

/-- `inc_bytes` after a store goes as it would over any other byte string. -/
theorem incBytes_rebase {c c' : Cursor} {bs : List (BitVec 8)} {n : Fin 65536} {r : Except CursorError Unit}
    (h : incBytes { c with bytecode := bs } n = some (r, c')) (B : List (BitVec 8)) :
    incBytes { c with bytecode := B } n = some (r, { c' with bytecode := B }) := by
  rw [incBytes_bytecode_eq] at h ⊢
  obtain ⟨x, hx, h⟩ := Option.map_eq_some'.1 h
  rw [Prod.mk.injEq] at h
  rw [hx, ← h.1, ← h.2]
  rfl

theorem incBytes_bytecode {c c' : Cursor} {n : Fin 65536} {r : Except CursorError Unit}
    (h : incBytes c n = some (r, c')) : c'.bytecode = c.bytecode ∧ c'.bitPos = c.bitPos := by
  unfold incBytes at h
  split_ifs at h <;> simp only [Option.some.injEq, reduceCtorEq, Prod.mk.injEq] at h
  · rw [← h.2]; exact ⟨rfl, rfl⟩
  · rw [show c' = (incBytesInner c n).2 by rw [h]]; simp

/-- A failed `inc_bytes` leaves the cursor as it was: either the flag was set, or the advance leaves the address
space. -/
theorem incBytes_error {c c' : Cursor} {n : Fin 65536} {e : CursorError} (h : incBytes c n = some (.error e, c')) :
    c' = c ∧ c.bitPos.val = 0 ∧ ((c.eof = true ∧ e = .eof) ∨
      (c.eof = false ∧ e = .outOfBoundaries (c.bytePos.val + n.val) ∧ 65536 ≤ c.bytePos.val + n.val)) := by
  unfold incBytes at h
  split_ifs at h with h0 he <;> simp only [Option.some.injEq, Prod.mk.injEq, Except.error.injEq, reduceCtorEq] at h
  · exact ⟨h.2.symm, by omega, .inl ⟨he, h.1.symm⟩⟩
  · obtain ⟨h1, h2, h3⟩ := incBytesInner_error h
    exact ⟨h2, by omega, .inr ⟨by simpa using he, h1, h3⟩⟩

theorem incBytes_bitPos {c : Cursor} {n : Fin 65536} {x : Except CursorError Unit × Cursor}
    (h : incBytes c n = some x) : c.bitPos.val = 0 := by
  by_contra h0
  rw [incBytes_of_bitPos h0] at h
  cases h

/-- An `inc_bytes` that returns `Ok` was aligned and off the end of data, and is an `Ok` advance. -/
theorem incBytes_ok {c c' : Cursor} {n : Fin 65536} (h : incBytes c n = some (.ok (), c')) :
    c.bitPos.val = 0 ∧ c.eof = false ∧ incBytesInner c n = (.ok (), c') := by
  have h0 := incBytes_bitPos h
  cases he : c.eof
  · rw [incBytes_of_aligned h0 he, Option.some.injEq] at h
    exact ⟨h0, rfl, h⟩
  · rw [incBytes_of_eof h0 he] at h
    cases h

/-- An `inc_bytes` that returns `Ok` passes `8 * n` bits. -/
theorem incBytes_consumed {c c' : Cursor} {n : Fin 65536} (h : incBytes c n = some (.ok (), c')) :
    c'.consumed = c.consumed + 8 * n.val := by
  obtain ⟨-, he, h⟩ := incBytes_ok h
  exact incBytesInner_consumed he h

end AluVm.Cursor
