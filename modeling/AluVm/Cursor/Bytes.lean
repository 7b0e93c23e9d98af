import AluVm.Cursor.Basic

/-!
# Byte strings bit by bit

The cursor addresses a byte string least significant bit first: bit `k` is bit `k % 8` of byte `k / 8` (`bitAt`).
`Unchanged bs bs' lo hi` says that `bs'` has the length of `bs` and the same bits outside `[lo, hi)`: the frame of a
store. A store of one byte changes only its 8 bits (`unchanged_set`), a copy into `[s, e)` only the bits of those bytes
(`unchanged_copyFromSlice`), and bytes are determined by their bits (`byteAt_eq_of_bitAt`).
-/

namespace AluVm

/-- Byte `i` of a byte string, `0` past its end. -/
def byteAt (bs : List (BitVec 8)) (i : Nat) : BitVec 8 := bs.getD i 0#8

/-- Bit `k` of a byte string. -/
def bitAt (bs : List (BitVec 8)) (k : Nat) : Bool := (byteAt bs (k / 8)).getLsbD (k % 8)

/-- `bs'` has the length of `bs` and the same bits outside `[lo, hi)`. -/
def Unchanged (bs bs' : List (BitVec 8)) (lo hi : Nat) : Prop :=
  bs'.length = bs.length ∧ ∀ k, (k < lo ∨ hi ≤ k) → bitAt bs' k = bitAt bs k

namespace Unchanged

theorem refl (bs : List (BitVec 8)) (lo hi : Nat) : Unchanged bs bs lo hi := ⟨rfl, fun _ _ => rfl⟩

theorem mono {bs bs' : List (BitVec 8)} {lo hi lo' hi' : Nat} (h : Unchanged bs bs' lo hi) (hl : lo' ≤ lo)
    (hh : hi ≤ hi') : Unchanged bs bs' lo' hi' :=
  ⟨h.1, fun k hk => h.2 k (by omega)⟩

theorem trans {bs bs' bs'' : List (BitVec 8)} {lo hi : Nat} (h : Unchanged bs bs' lo hi)
    (h' : Unchanged bs' bs'' lo hi) : Unchanged bs bs'' lo hi :=
  ⟨h'.1.trans h.1, fun k hk => (h'.2 k hk).trans (h.2 k hk)⟩

end Unchanged

theorem byteAt_eq_getElem {bs : List (BitVec 8)} {i : Nat} (h : i < bs.length) : byteAt bs i = bs[i] := by
  simp [byteAt, List.getD_eq_getElem?_getD, h]

theorem byteAt_of_length_le {bs : List (BitVec 8)} {i : Nat} (h : bs.length ≤ i) : byteAt bs i = 0#8 := by
  simp [byteAt, List.getD_eq_getElem?_getD, List.getElem?_eq_none h]

theorem bitAt_eq_getLsbD (bs : List (BitVec 8)) (i : Nat) {j : Nat} (hj : j < 8) :
    bitAt bs (8 * i + j) = (byteAt bs i).getLsbD j := by
  simp only [bitAt, show (8 * i + j) / 8 = i by omega, show (8 * i + j) % 8 = j by omega]

/-- A byte is determined by its eight bits. -/
theorem byteAt_eq_of_bitAt {bs bs' : List (BitVec 8)} {i : Nat}
    (h : ∀ j < 8, bitAt bs (8 * i + j) = bitAt bs' (8 * i + j)) : byteAt bs i = byteAt bs' i := by
  ext j
  have := h j j.isLt
  simpa [bitAt, show (8 * i + j) / 8 = i by omega, show (8 * i + j) % 8 = j by omega] using this

theorem byteAt_set (bs : List (BitVec 8)) (i j : Nat) (v : BitVec 8) :
    byteAt (bs.set i v) j = if i = j ∧ j < bs.length then v else byteAt bs j := by
  simp only [byteAt, List.getD_eq_getElem?_getD, List.getElem?_set]
  by_cases hij : i = j
  · subst hij
    by_cases hl : i < bs.length
    · simp [hl]
    · simp [hl, List.getElem?_eq_none (show bs.length ≤ i by omega)]
  · simp [hij]

theorem bitAt_set (bs : List (BitVec 8)) (i k : Nat) (v : BitVec 8) :
    bitAt (bs.set i v) k = if k / 8 = i ∧ i < bs.length then v.getLsbD (k % 8) else bitAt bs k := by
  simp only [bitAt, byteAt_set]
  split_ifs <;> first | rfl | omega

/-- Storing one byte changes only its bits. -/
theorem unchanged_set (bs : List (BitVec 8)) (i : Nat) (v : BitVec 8) :
    Unchanged bs (bs.set i v) (8 * i) (8 * i + 8) := by
  refine ⟨List.length_set .., fun k hk => ?_⟩
  rw [bitAt_set, if_neg (by omega)]

theorem setByte_eq_some {bs bs' : List (BitVec 8)} {i : Nat} {v : BitVec 8} (h : setByte bs i v = some bs') :
    i < bs.length ∧ bs' = bs.set i v := by
  unfold setByte at h
  split_ifs at h with hi
  exact ⟨hi, (Option.some.inj h).symm⟩

theorem byteAt_copyFromSlice {bs bs' src : List (BitVec 8)} {s e : Nat} (h : copyFromSlice bs s e src = some bs')
    (j : Nat) : byteAt bs' j = if s ≤ j ∧ j < e then byteAt src (j - s) else byteAt bs j := by
  unfold copyFromSlice at h
  split_ifs at h with hr
  obtain ⟨h1, h2, h3⟩ := hr
  cases h
  have ht : (bs.take s).length = s := by simp; omega
  simp only [byteAt, List.getD_eq_getElem?_getD]
  rcases Nat.lt_or_ge j s with hj | hj
  · rw [List.getElem?_append_left (by simp; omega), List.getElem?_append_left (by omega),
      List.getElem?_take_of_lt hj, if_neg (by omega)]
  rcases Nat.lt_or_ge j e with hj' | hj'
  · rw [List.getElem?_append_left (by simp; omega), List.getElem?_append_right (by omega), ht,
      if_pos ⟨hj, hj'⟩]
  · rw [List.getElem?_append_right (by simp; omega), List.getElem?_drop, if_neg (by omega)]
    congr 2
    simp; omega

theorem length_copyFromSlice {bs bs' src : List (BitVec 8)} {s e : Nat} (h : copyFromSlice bs s e src = some bs') :
    bs'.length = bs.length ∧ s ≤ e ∧ e ≤ bs.length ∧ src.length = e - s := by
  unfold copyFromSlice at h
  split_ifs at h with hr
  simp only [Option.some.injEq] at h
  subst h
  simp only [List.length_append, List.length_take, List.length_drop]
  omega

/-- After a copy into `[s, e)`, those bytes are the copied ones. -/
theorem range_copyFromSlice {bs bs' src : List (BitVec 8)} {s e : Nat} (h : copyFromSlice bs s e src = some bs') :
    range bs' s e = some src := by
  obtain ⟨hl, hse, he, hsrc⟩ := length_copyFromSlice h
  unfold copyFromSlice at h
  rw [if_pos ⟨hse, he, hsrc⟩, Option.some.injEq] at h
  subst h
  rw [range, if_pos ⟨hse, by omega⟩, List.append_assoc, List.drop_left' (by simp; omega),
    List.take_left' hsrc]

/-- The bits of the bytes a copy stored are those of the source. -/
theorem bitAt_copyFromSlice {bs bs' src : List (BitVec 8)} {s e k : Nat} (h : copyFromSlice bs s e src = some bs')
    (hs : 8 * s ≤ k) (he : k < 8 * e) : bitAt bs' k = bitAt src (k - 8 * s) := by
  simp only [bitAt, byteAt_copyFromSlice h, if_pos (show s ≤ k / 8 ∧ k / 8 < e by omega)]
  rw [show k / 8 - s = (k - 8 * s) / 8 by omega, show k % 8 = (k - 8 * s) % 8 by omega]

/-- A copy into `[s, e)` changes only the bits of those bytes. -/
theorem unchanged_copyFromSlice {bs bs' src : List (BitVec 8)} {s e : Nat} (h : copyFromSlice bs s e src = some bs') :
    Unchanged bs bs' (8 * s) (8 * e) := by
  refine ⟨(length_copyFromSlice h).1, fun k hk => ?_⟩
  simp only [bitAt, byteAt_copyFromSlice h, if_neg (show ¬(s ≤ k / 8 ∧ k / 8 < e) by omega)]

end AluVm
