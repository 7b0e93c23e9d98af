import AluVm.Cursor.Bytes
import AluVm.Cursor.Step

/-!
# Bit fields

The mask loop of `extract` builds `n` one bits (`getLsbD_maskLoop_zero`), so `extract` returns the bits of the current
byte from the bit offset on, at most `n` of them and none past bit 7 (`getLsbD_extracted`): a field that crosses into
the next byte loses its high bits there. The store `byte |= data << bit_pos` of the bit-field writes changes only the
bits `[bit_pos, bit_pos + n)` of the byte when `data` fits in `n` bits (`unchanged_orByte`), and ORs `data` into them
(`bitAt_orByte`).
-/

namespace AluVm

open Cursor

theorem getLsbD_maskLoop (n : Nat) (m : BitVec 8) (i : Nat) :
    (maskLoop n m).getLsbD i = (decide (i < 8) && (decide (i < n) || m.getLsbD (i - n))) := by
  induction n generalizing m with
  | zero =>
    by_cases hi : i < 8
    · simp [maskLoop, hi]
    · simp [maskLoop, hi, BitVec.getLsbD_ge m i (by omega)]
  | succ n ih =>
    rw [maskLoop, ih]
    by_cases hi : i < 8
    · rcases Nat.lt_or_ge i n with h | h
      · simp [hi, h, show i < n + 1 by omega]
      · rcases Nat.eq_or_lt_of_le h with h | h
        · subst h; simp
        · simp [hi, show ¬i < n by omega, show ¬i < n + 1 by omega, show ¬i - n < 1 by omega,
            show i - n < 8 by omega, show i - n ≠ 0 by omega, show i - n - 1 = i - (n + 1) by omega]
    · simp [hi]

/-- The mask of `extract`: `n` one bits. -/
theorem getLsbD_maskLoop_zero (n i : Nat) : (maskLoop n 0#8).getLsbD i = (decide (i < 8) && decide (i < n)) := by
  simp [getLsbD_maskLoop]

/-- The value `extract` computes: the bits from `p` on, at most `n` of them and none past bit 7. -/
theorem getLsbD_extracted (byte : BitVec 8) (p n i : Nat) :
    ((byte &&& (maskLoop n 0#8 <<< p)) >>> p).getLsbD i =
      (decide (i < n) && decide (p + i < 8) && byte.getLsbD (p + i)) := by
  simp only [BitVec.getLsbD_ushiftRight, BitVec.getLsbD_and, BitVec.getLsbD_shiftLeft, getLsbD_maskLoop_zero]
  by_cases h : p + i < 8
  · simp [h, show i < 8 by omega, show ¬p + i < p by omega, Bool.and_comm]
  · simp [h]

/-- The value `extract` computes fits in `n` bits. -/
theorem getLsbD_extracted_ge (byte : BitVec 8) {p n i : Nat} (h : n ≤ i) :
    ((byte &&& (maskLoop n 0#8 <<< p)) >>> p).getLsbD i = false := by
  rw [getLsbD_extracted]; simp [show ¬i < n by omega]

theorem orByte_eq_some {bs bs' : List (BitVec 8)} {i : Nat} {v : BitVec 8} (h : orByte bs i v = some bs') :
    i < bs.length ∧ bs' = bs.set i (byteAt bs i ||| v) := by
  unfold orByte at h
  cases hb : bs[i]? with
  | none => simp [hb] at h
  | some b =>
    simp only [hb, Option.map_some', Option.some.injEq] at h
    have hi : i < bs.length := (List.getElem?_eq_some_iff.mp hb).1
    refine ⟨hi, ?_⟩
    rw [← h, byteAt, List.getD_eq_getElem?_getD, hb, Option.getD_some]

/-- The bits of a byte string after `bs[p] |= data << b`. -/
theorem bitAt_orByte {bs bs' : List (BitVec 8)} {p b : Nat} {data : BitVec 8}
    (h : orByte bs p (data <<< b) = some bs') (k : Nat) :
    bitAt bs' k = (bitAt bs k || (decide (k / 8 = p) && decide (b ≤ k % 8) && data.getLsbD (k % 8 - b))) := by
  obtain ⟨hp, rfl⟩ := orByte_eq_some h
  rw [bitAt_set]
  by_cases hk : k / 8 = p
  · by_cases hb : b ≤ k % 8
    · simp [hk, hp, hb, bitAt, BitVec.getLsbD_shiftLeft, show k % 8 < 8 by omega, show ¬k % 8 < b by omega]
    · simp [hk, hp, hb, bitAt, BitVec.getLsbD_shiftLeft, show k % 8 < b by omega]
  · simp [hk]

/-- `bs[p] |= data << b` with `data` of `n` bits changes only the bits `[8p + b, 8p + b + n)`. -/
theorem unchanged_orByte {bs bs' : List (BitVec 8)} {p b n : Nat} {data : BitVec 8}
    (h : orByte bs p (data <<< b) = some bs') (hd : ∀ j, n ≤ j → data.getLsbD j = false) :
    Unchanged bs bs' (8 * p + b) (8 * p + b + n) := by
  obtain ⟨hp, rfl⟩ := orByte_eq_some h
  refine ⟨List.length_set .., fun k hk => ?_⟩
  rw [bitAt_orByte h]
  by_cases hkp : k / 8 = p
  · by_cases hb : b ≤ k % 8
    · simp [hkp, hb, hd (k % 8 - b) (by omega)]
    · simp [hb]
  · simp [hkp]

end AluVm
