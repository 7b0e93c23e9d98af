import AluVm.Cursor.RoundTrip
import AluVm.Cursor.Safety
import AluVm.Cursor.Value

/-!
# Reading then writing

Decoding is canonical for reads that look at every bit they pass: reading a byte string from `Cursor::with`, then
writing what was read from `Cursor::with` over zero bytes of the same length, gives a byte string that agrees with the
one read on every bit the reads passed, with the writer where the reader was (`decode_canonical`); two byte strings of
one length that read the same therefore agree there (`decode_injective`). The proof follows the reader: each write
stores exactly the bits its read looked at (`ReadOp.write_after_call`).

Not every read looks at every bit it passes. `read_slice` passes two bytes after the data, a bit field that crosses a
byte boundary passes the low bits of the next byte, and `peek_u8` returns a byte and passes none. Byte strings that
differ there read the same, and writing what was read gives zeros there (`slice_gap_unread`).
-/

namespace AluVm

open Cursor

namespace Cursor

theorem byteAt_of_getElem? {bs : List (BitVec 8)} {i : Nat} {b : BitVec 8} (h : bs[i]? = some b) :
    byteAt bs i = b := by
  simp [byteAt, List.getD_eq_getElem?_getD, h]

/-- The bytes `range` returns are those of the byte string. -/
theorem byteAt_range {bs x : List (BitVec 8)} {s e : Nat} (h : range bs s e = some x) (j : Nat) (hj : s + j < e) :
    byteAt x j = byteAt bs (s + j) := by
  obtain ⟨-, he, rfl⟩ := range_eq_some h
  simp [byteAt, List.getD_eq_getElem?_getD, List.getElem?_take, List.getElem?_drop, show j < e - s by omega]

/-- What an `extract` that returns `Ok` did: it read the byte at the offset and advanced with `inc_bits`. -/
theorem extract_eq_ok {c c' : Cursor} {n : Fin 8} {b : BitVec 8} (h : extract c n = some (.ok b, c')) :
    c.eof = false ∧ ∃ byte, c.bytecode[c.bytePos.val]? = some byte ∧
      b = (byte &&& (maskLoop n.val 0#8 <<< c.bitPos.val)) >>> c.bitPos.val ∧ incBits c n = (.ok (), c') := by
  unfold extract at h
  split_ifs at h with he
  · simp at h
  have he' : c.eof = false := by simpa using he
  obtain ⟨byte, hb, h⟩ := Option.map_eq_some'.1 h
  have e : incBits c n = (.ok (), (incBits c n).2) := Prod.ext (incBits_consumed he' n).1 rfl
  rw [e, putValue_ok, Prod.mk.injEq, Except.ok.injEq] at h
  exact ⟨he', byte, hb, h.1.symm, by rw [e, h.2]⟩

/-- A `deposit` of what `extract` returned, over bytes that agree with those read up to the offset and are zero from
there, stores the bits the extract looked at; with the field in its byte, those are all the bits it passed. -/
theorem deposit_after_extract {c c' : Cursor} {n : Fin 8} {b : BitVec 8} {W : List (BitVec 8)}
    (h : extract c n = some (.ok b, c')) (hn : c.bitPos.val + n.val ≤ 8) (hW : SameBelow c.bytecode W c.consumed)
    (hz : ZeroFrom W c.consumed) :
    ∃ W', deposit b n { c with bytecode := W } = some (.ok (), { c' with bytecode := W' }) ∧
      SameBelow c.bytecode W' c'.consumed := by
  obtain ⟨he, byte, hb, hv, hinc⟩ := extract_eq_ok h
  have hp : c.bytePos.val < W.length := by rw [hW.1]; exact (List.getElem?_eq_some_iff.1 hb).1
  have hd : ∀ j, n.val ≤ j → b.getLsbD j = false := fun j hj => by rw [hv]; exact getLsbD_extracted_ge byte hj
  obtain ⟨W', hW'⟩ : ∃ W', orByte W c.bytePos.val (b <<< c.bitPos.val) = some W' :=
    ⟨W.set c.bytePos.val (W[c.bytePos.val] ||| b <<< c.bitPos.val), by simp [orByte, List.getElem?_eq_getElem hp]⟩
  have hc : c'.consumed = c.consumed + n.val := by rw [← (incBits_consumed he n).2, hinc]
  have hk : c.consumed = 8 * c.bytePos.val + c.bitPos.val := by rw [consumed_of_not_eof he]; rfl
  refine ⟨W', ?_, (orByte_eq_some hW').2 ▸ by simp [hW.1], fun k hk' => ?_⟩
  · simp only [deposit, hW', Option.map_some', incBits_bytecode_eq, hinc]
  · by_cases hlo : k < c.consumed
    · rw [(unchanged_orByte hW' hd).2 k (.inl (by omega)), hW.2 k hlo]
    · obtain ⟨i, rfl⟩ : ∃ i, k = 8 * c.bytePos.val + (c.bitPos.val + i) := ⟨k - c.consumed, by omega⟩
      rw [bitAt_orByte hW', hz _ (by omega), bitAt_eq_getLsbD _ _ (by omega), byteAt_of_getElem? hb, hv,
        getLsbD_extracted]
      simp [show (8 * c.bytePos.val + (c.bitPos.val + i)) / 8 = c.bytePos.val by omega,
        show (8 * c.bytePos.val + (c.bitPos.val + i)) % 8 = c.bitPos.val + i by omega, show i < n.val by omega,
        show c.bitPos.val + i < 8 by omega]

theorem writeBool_after_readBool {c c' : Cursor} {b : Bool} {W : List (BitVec 8)} (h : readBool c = some (.ok b, c'))
    (hW : SameBelow c.bytecode W c.consumed) (hz : ZeroFrom W c.consumed) :
    ∃ W', writeBool b { c with bytecode := W } = some (.ok (), { c' with bytecode := W' }) ∧
      SameBelow c.bytecode W' c'.consumed := by
  unfold readBool at h
  split_ifs at h
  · simp at h
  obtain ⟨⟨r, c₁⟩, hx, h⟩ := Option.map_eq_some'.1 h
  cases r with
  | error => simp [Except.map] at h
  | ok v =>
    simp only [Except.map, Prod.mk.injEq, Except.ok.injEq] at h
    obtain ⟨rfl, rfl⟩ := h
    obtain ⟨-, byte, -, hv, -⟩ := extract_eq_ok hx
    have hlt : v.toNat < 2 ^ 1 :=
      Nat.lt_pow_two_of_testBit _ fun i hi => by rw [hv]; exact getLsbD_extracted_ge byte hi
    have hbit : (if (v == 1#8) = true then 1#8 else 0#8) = v := by
      rcases (by omega : v.toNat = 0 ∨ v.toNat = 1) with h0 | h1
      · rw [show v = 0#8 from BitVec.eq_of_toNat_eq h0]; rfl
      · rw [show v = 1#8 from BitVec.eq_of_toNat_eq h1]; rfl
    rw [writeBool, hbit]
    exact deposit_after_extract hx (by have := c.bitPos.isLt; simp; omega) hW hz

theorem writeUN_after_readUN {c c' : Cursor} {w : Width} {v : BitVec w.bits} {W : List (BitVec 8)}
    (h : readUN w c = some (.ok v, c')) (hin : c.bitPos.val + w.bits ≤ 8) (hW : SameBelow c.bytecode W c.consumed)
    (hz : ZeroFrom W c.consumed) :
    ∃ W', writeUN w v { c with bytecode := W } = some (.ok (), { c' with bytecode := W' }) ∧
      SameBelow c.bytecode W' c'.consumed := by
  obtain ⟨⟨r, c₁⟩, hx, h⟩ := Option.bind_eq_some.1 h
  cases r with
  | error => simp at h
  | ok b =>
    obtain ⟨v', hv', h⟩ := Option.map_eq_some'.1 h
    simp only [Prod.mk.injEq, Except.ok.injEq] at h
    obtain ⟨rfl, rfl⟩ := h
    obtain ⟨-, byte, -, hb, -⟩ := extract_eq_ok hx
    have hlt : b.toNat < 2 ^ w.bits :=
      Nat.lt_pow_two_of_testBit _ fun i hi => by rw [hb]; exact getLsbD_extracted_ge byte hi
    rw [tryInto_extract hx, Option.some.injEq] at hv'
    have hw : v'.setWidth 8 = b := by
      apply BitVec.eq_of_toNat_eq
      rw [← hv', BitVec.toNat_setWidth, BitVec.toNat_ofNat, Nat.mod_eq_of_lt hlt, Nat.mod_eq_of_lt b.isLt]
    rw [writeUN, hw]
    exact deposit_after_extract hx hin hW hz

theorem writeU8_after_readU8 {c c' : Cursor} {v : BitVec 8} {W : List (BitVec 8)} (h : readU8 c = some (.ok v, c'))
    (hW : SameBelow c.bytecode W c.consumed) :
    ∃ W', writeU8 v { c with bytecode := W } = some (.ok (), { c' with bytecode := W' }) ∧
      SameBelow c.bytecode W' c'.consumed := by
  unfold readU8 at h
  split_ifs at h
  · simp at h
  obtain ⟨byte, hb, h⟩ := Option.bind_eq_some.1 h
  obtain ⟨rfl, hinc⟩ := incBytes_putValue_ok h
  obtain ⟨h0, he, -⟩ := incBytes_ok hinc
  have hp : c.bytePos.val < W.length := by rw [hW.1]; exact (List.getElem?_eq_some_iff.1 hb).1
  have hc : c'.consumed = 8 * (c.bytePos.val + 1) := by rw [incBytes_consumed hinc, consumed_of_aligned h0 he]; rfl
  rw [consumed_of_aligned h0 he] at hW
  refine ⟨W.set c.bytePos.val byte, ?_, hc ▸ hW.store ((unchanged_set ..).mono le_rfl (by omega)) fun i hi hi' => ?_⟩
  · simp only [writeU8, setByte, if_pos hp, Option.some_bind, incBytes_bytecode_eq, hinc, Option.map_some']
  · rw [show i = c.bytePos.val by omega, byteAt_set, if_pos ⟨rfl, hp⟩, byteAt_of_getElem? hb]

theorem toLeBytes_fromLeBytes {buf : List (BitVec 8)} (h : buf.length = 2) : toLeBytes (fromLeBytes buf) = buf := by
  match buf, h with
  | [a, b], _ =>
    simp only [toLeBytes, fromLeBytes, List.getD_cons_zero, List.getD_cons_succ, List.cons.injEq, and_true]
    constructor <;> ext i <;> simp only [BitVec.getLsbD_extractLsb', BitVec.getLsbD_append] <;>
      simp [show (i : Nat) < 8 from i.isLt]

theorem writeLe16_after_readLe16 {c c' : Cursor} {v : BitVec 16} {W : List (BitVec 8)}
    (h : readLe16 c = some (.ok v, c')) (hW : SameBelow c.bytecode W c.consumed) :
    ∃ W', writeLe16 v { c with bytecode := W } = some (.ok (), { c' with bytecode := W' }) ∧
      SameBelow c.bytecode W' c'.consumed := by
  unfold readLe16 at h
  split_ifs at h
  · simp at h
  obtain ⟨buf, hbuf, h⟩ := Option.bind_eq_some.1 h
  obtain ⟨rfl, hinc⟩ := incBytes_putValue_ok h
  obtain ⟨h0, he, -⟩ := incBytes_ok hinc
  obtain ⟨-, hl, hbuf₂⟩ := range_eq_some hbuf
  have hlen : buf.length = 2 := by rw [hbuf₂]; simp; omega
  have hp : c.bytePos.val + 1 < W.length := by rw [hW.1]; omega
  have hc : c'.consumed = 8 * (c.bytePos.val + 2) := by rw [incBytes_consumed hinc, consumed_of_aligned h0 he]; rfl
  rw [consumed_of_aligned h0 he] at hW
  refine ⟨(W.set c.bytePos.val (buf.getD 0 0#8)).set (c.bytePos.val + 1) (buf.getD 1 0#8), ?_,
    hc ▸ hW.store ?_ fun i hi hi' => ?_⟩
  · simp only [writeLe16, toLeBytes_fromLeBytes hlen, setByte, if_pos (show c.bytePos.val < W.length by omega),
      List.length_set, if_pos hp, Option.some_bind, incBytes_bytecode_eq, hinc, Option.map_some']
  · exact ((unchanged_set ..).mono le_rfl (by omega)).trans ((unchanged_set ..).mono (by omega) (by omega))
  · rcases (by omega : i = c.bytePos.val ∨ i = c.bytePos.val + 1) with rfl | rfl
    · rw [byteAt_set, if_neg (by omega), byteAt_set, if_pos ⟨rfl, by omega⟩]
      exact byteAt_range hbuf 0 (by omega)
    · rw [byteAt_set, if_pos ⟨rfl, by simp; omega⟩]
      exact byteAt_range hbuf 1 (by omega)

theorem writeBytes32_after_readBytes32 {c c' : Cursor} {v : Bytes32} {W : List (BitVec 8)}
    (h : readBytes32 c = some (.ok v, c')) (hW : SameBelow c.bytecode W c.consumed) :
    ∃ W', writeBytes32 v { c with bytecode := W } = some (.ok (), { c' with bytecode := W' }) ∧
      SameBelow c.bytecode W' c'.consumed := by
  unfold readBytes32 at h
  split_ifs at h
  · simp at h
  by_cases hl : c.bytePos.val + 32 ≤ c.bytecode.length
  swap
  · simp only [dif_neg hl] at h
    cases h
  simp only [dif_pos hl] at h
  obtain ⟨rfl, hinc⟩ := incBytes_putValue_ok h
  obtain ⟨h0, he, -⟩ := incBytes_ok hinc
  have hc : c'.consumed = 8 * (c.bytePos.val + 32) := by rw [incBytes_consumed hinc, consumed_of_aligned h0 he]; rfl
  rw [consumed_of_aligned h0 he] at hW
  have hcopy : copyFromSlice W c.bytePos.val (c.bytePos.val + 32) ((c.bytecode.drop c.bytePos.val).take 32) =
      some (W.take c.bytePos.val ++ (c.bytecode.drop c.bytePos.val).take 32 ++ W.drop (c.bytePos.val + 32)) := by
    rw [copyFromSlice, if_pos ⟨by omega, by rw [hW.1]; exact hl, by simp; omega⟩]
  refine ⟨_, ?_, hc ▸ hW.store (unchanged_copyFromSlice hcopy) fun i hi hi' => ?_⟩
  · simp only [writeBytes32, hcopy, Option.some_bind, incBytes_bytecode_eq, hinc, Option.map_some']
  · rw [byteAt_copyFromSlice hcopy, if_pos ⟨hi, hi'⟩]
    simp [byteAt, List.getD_eq_getElem?_getD, List.getElem?_take, List.getElem?_drop,
      show i - c.bytePos.val < 32 by omega, show c.bytePos.val + (i - c.bytePos.val) = i by omega]

theorem writeValue_after_readValue {c c' : Cursor} {reg : RegisterSet} {n : Number} {W : List (BitVec 8)}
    (h : readValue reg c = some (.ok n, c')) (hW : SameBelow c.bytecode W c.consumed) :
    ∃ W', writeValue reg n { c with bytecode := W } = some (.ok (), { c' with bytecode := W' }) ∧
      SameBelow c.bytecode W' c'.consumed := by
  unfold readValue at h
  split_ifs at h with he
  · simp at h
  obtain ⟨s, hs, h⟩ := Option.bind_eq_some.1 h
  obtain ⟨rfl, hinc⟩ := incBytes_putValue_ok h
  obtain ⟨h0, he, -⟩ := incBytes_ok hinc
  obtain ⟨-, hl, hs₂⟩ := range_eq_some hs
  have hlen : s.length = reg.bits.val / 8 := by rw [hs₂]; simp; omega
  have hc : c'.consumed = 8 * (c.bytePos.val + reg.bits.val / 8) := by
    rw [incBytes_consumed hinc, consumed_of_aligned h0 he]; simp; omega
  rw [consumed_of_aligned h0 he] at hW
  have hb : ((Number.fromSlice s).reshape (reg.layout.usingSign (Number.fromSlice s).layout)).bytes = s :=
    Number.bytes_reshape_of_len _ _ (by simp [RegisterSet.layout, Layout.usingSign, hlen])
  have hcopy : copyFromSlice W c.bytePos.val (c.bytePos.val + reg.bits.val / 8) s =
      some (W.take c.bytePos.val ++ s ++ W.drop (c.bytePos.val + reg.bits.val / 8)) := by
    rw [copyFromSlice, if_pos ⟨by omega, by rw [hW.1]; exact hl, by omega⟩]
  refine ⟨_, ?_, hc ▸ hW.store (unchanged_copyFromSlice hcopy) fun i hi hi' => ?_⟩
  · simp only [writeValue, Number.len_fromSlice, hlen, le_refl, if_true, len_reshape_register, hb, hcopy,
      Option.some_bind, incBytes_bytecode_eq, hinc, Option.map_some']
  · rw [byteAt_copyFromSlice hcopy, if_pos ⟨hi, hi'⟩, byteAt_range hs (i - c.bytePos.val) (by omega),
      show c.bytePos.val + (i - c.bytePos.val) = i by omega]

end Cursor

namespace ReadOp

/-- The read looks at every bit it passes: not `peek_u8`, which passes none, not `read_slice`, which passes two bytes
after the data, and no bit field that crosses a byte boundary. -/
def Plain : ReadOp → Cursor → Prop
  | .readU w, c => c.bitPos.val + w.bits ≤ 8
  | .peekU8, _ | .readSlice, _ => False
  | _, _ => True

instance (o : ReadOp) (c : Cursor) : Decidable (o.Plain c) :=
  match o with
  | .readU _ => inferInstanceAs (Decidable (_ ≤ _))
  | .peekU8 | .readSlice => inferInstanceAs (Decidable False)
  | .readBool | .readU8 | .readU16 | .readI16 | .readBytes32 | .readValue _ => inferInstanceAs (Decidable True)

/-- The write of what a read returned, over bytes that agree with those read up to the offset and are zero from there,
stores what the read looked at; for a read that looks at every bit it passes, the bytes agree up to where it ended. -/
theorem write_after_call {o : ReadOp} {c c' : Cursor} {v : Field} {W : List (BitVec 8)}
    (h : o.call c = some (.ok v, c')) (ho : o.Plain c) (hW : SameBelow c.bytecode W c.consumed)
    (hz : ZeroFrom W c.consumed) :
    ∃ W', v.write { c with bytecode := W } = some (.ok (), { c' with bytecode := W' }) ∧
      SameBelow c.bytecode W' c'.consumed := by
  cases o
  case peekU8 | readSlice => exact ho.elim
  all_goals obtain ⟨b, h₀, rfl⟩ := mapResult_eq_ok h
  case readBool => exact writeBool_after_readBool h₀ hW hz
  case readU w => exact writeUN_after_readUN h₀ ho hW hz
  case readU8 => exact writeU8_after_readU8 h₀ hW
  case readU16 | readI16 => exact writeLe16_after_readLe16 h₀ hW
  case readBytes32 => exact writeBytes32_after_readBytes32 h₀ hW
  case readValue reg => exact writeValue_after_readValue h₀ hW

end ReadOp

/-- Every read of a run looks at every bit it passes. -/
def PlainRun : Cursor → List ReadOp → Prop
  | _, [] => True
  | c, o :: os => o.Plain c ∧ ∀ x ∈ o.call c, PlainRun x.2 os

instance decPlainRun : (c : Cursor) → (os : List ReadOp) → Decidable (PlainRun c os)
  | _, [] => isTrue trivial
  | c, o :: os =>
    have : DecidablePred fun x : Except CursorError Field × Cursor => PlainRun x.2 os := fun x => decPlainRun x.2 os
    inferInstanceAs (Decidable (o.Plain c ∧ ∀ x ∈ o.call c, PlainRun x.2 os))

/-- Writing what a run of reads returned, over bytes that agree with those read up to where the run starts and are
zero from there: every write returns `Ok`, the writer ends where the reader ended, and the bytes written agree with
those read up to there. -/
theorem runWrites_after_runReads : ∀ {c : Cursor} {os : List ReadOp} {tr : List (Except CursorError Field × Cursor)}
    {vs : List Field} {W : List (BitVec 8)}, runReads c os = some tr → tr.map Prod.fst = vs.map .ok →
      PlainRun c os → SameBelow c.bytecode W c.consumed → ZeroFrom W c.consumed →
      ∃ tr', runWrites { c with bytecode := W } vs = some tr' ∧ (∀ x ∈ tr', x.1 = .ok ()) ∧
        lastCursor { c with bytecode := W } tr' =
          { lastCursor c tr with bytecode := (lastCursor { c with bytecode := W } tr').bytecode } ∧
        SameBelow c.bytecode (lastCursor { c with bytecode := W } tr').bytecode (lastCursor c tr).consumed
  | c, [], tr, vs, W, h, hv, _, hW, _ => by
    cases h
    cases vs with
    | nil => exact ⟨[], rfl, by simp, rfl, hW⟩
    | cons => cases hv
  | c, o :: os, tr, vs, W, h, hv, ⟨ho, hos⟩, hW, hz => by
    obtain ⟨r, c', tr', h₁, h₂, rfl⟩ := runReads_cons_eq_some h
    cases vs with
    | nil => cases hv
    | cons v vs =>
      simp only [List.map_cons, List.cons.injEq] at hv
      obtain ⟨rfl, hv⟩ := hv
      obtain ⟨W', hw, hs⟩ := ReadOp.write_after_call h₁ ho hW hz
      have hb : c'.bytecode = c.bytecode := ReadOp.call_bytecode h₁
      have hs₁ : SameBelow c'.bytecode W' c'.consumed := by rw [hb]; exact hs
      have hz₁ : ZeroFrom W' c'.consumed := Field.write_zeroFrom hw hz
      obtain ⟨tr'', hr, hok, hlast, hs'⟩ := runWrites_after_runReads (W := W') h₂ hv (hos _ h₁) hs₁ hz₁
      refine ⟨(.ok (), { c' with bytecode := W' }) :: tr'', by simp [runWrites, hw, hr], ?_, ?_, ?_⟩
      · simpa using hok
      · simpa using hlast
      · simpa [hb] using hs'

/-- Reading a byte string from `Cursor::with` with reads that look at every bit they pass, all returning `Ok`, then
writing what they returned from `Cursor::with` over zero bytes of the same length: every write returns `Ok`, the writer
ends where the reader ended, and the bytes written agree with those read on every bit the reads passed. -/
theorem decode_canonical {bs : List (BitVec 8)} {os : List ReadOp} {tr : List (Except CursorError Field × Cursor)}
    {vs : List Field} (h : runReads (withBytecode bs) os = some tr) (hv : tr.map Prod.fst = vs.map .ok)
    (hp : PlainRun (withBytecode bs) os) :
    ∃ tr', runWrites (withBytecode (List.replicate bs.length 0#8)) vs = some tr' ∧ (∀ x ∈ tr', x.1 = .ok ()) ∧
      lastCursor (withBytecode (List.replicate bs.length 0#8)) tr' =
        { lastCursor (withBytecode bs) tr with
          bytecode := (lastCursor (withBytecode (List.replicate bs.length 0#8)) tr').bytecode } ∧
      SameBelow bs (lastCursor (withBytecode (List.replicate bs.length 0#8)) tr').bytecode
        (lastCursor (withBytecode bs) tr).consumed :=
  runWrites_after_runReads h hv hp ⟨List.length_replicate _ _, fun _ hk => absurd hk (Nat.not_lt_zero _)⟩
    (zeroFrom_replicate _)

theorem decode_canonical_mixed :
    ∃ tr', runWrites (withBytecode (List.replicate 4 0#8))
        [.bits .u3 5#3, .bool true, .bits .u4 3#4, .u8 0xAB#8, .u16 0x1234#16] = some tr' ∧
      (∀ x ∈ tr', x.1 = .ok ()) ∧
      lastCursor (withBytecode (List.replicate 4 0#8)) tr' =
        { lastCursor (withBytecode [0x3D#8, 0xAB#8, 0x34#8, 0x12#8])
            ((runReads (withBytecode [0x3D#8, 0xAB#8, 0x34#8, 0x12#8])
              [.readU .u3, .readBool, .readU .u4, .readU8, .readU16]).getD []) with
          bytecode := (lastCursor (withBytecode (List.replicate 4 0#8)) tr').bytecode } ∧
      SameBelow [0x3D#8, 0xAB#8, 0x34#8, 0x12#8] (lastCursor (withBytecode (List.replicate 4 0#8)) tr').bytecode
        (lastCursor (withBytecode [0x3D#8, 0xAB#8, 0x34#8, 0x12#8])
          ((runReads (withBytecode [0x3D#8, 0xAB#8, 0x34#8, 0x12#8])
            [.readU .u3, .readBool, .readU .u4, .readU8, .readU16]).getD [])).consumed :=
  @decode_canonical [0x3D#8, 0xAB#8, 0x34#8, 0x12#8] [.readU .u3, .readBool, .readU .u4, .readU8, .readU16] _
    [.bits .u3 5#3, .bool true, .bits .u4 3#4, .u8 0xAB#8, .u16 0x1234#16] (by decide) (by decide) (by decide)

/-- The writes of what a plain run of `Ok` reads from `Cursor::with` returned, from `Cursor::with` over zero bytes of
the same length, return, end where the reader ended, and agree with the byte string below that point. -/
theorem runWrites_of_runReads {bs : List (BitVec 8)} {os : List ReadOp} {tr : List (Except CursorError Field × Cursor)}
    {vs : List Field} (h : runReads (withBytecode bs) os = some tr) (hv : tr.map Prod.fst = vs.map .ok)
    (hp : PlainRun (withBytecode bs) os) :
    ∃ w, runWrites (withBytecode (List.replicate bs.length 0#8)) vs = some w ∧
      (lastCursor (withBytecode (List.replicate bs.length 0#8)) w).consumed =
        (lastCursor (withBytecode bs) tr).consumed ∧
      SameBelow bs (lastCursor (withBytecode (List.replicate bs.length 0#8)) w).bytecode
        (lastCursor (withBytecode bs) tr).consumed := by
  obtain ⟨w, hw, -, hlast, hs⟩ := runWrites_after_runReads h hv hp
    ⟨List.length_replicate _ _, fun _ hk => absurd hk (Nat.not_lt_zero _)⟩ (zeroFrom_replicate _)
  have hc := congrArg consumed hlast
  exact ⟨w, hw, hc, hs⟩

/-- Two byte strings of one length that give the same values under reads that look at every bit they pass end the
reads at the same place and agree on every bit before it. -/
theorem decode_injective {bs bs' : List (BitVec 8)} {os : List ReadOp}
    {tr tr' : List (Except CursorError Field × Cursor)} {vs : List Field} (hl : bs.length = bs'.length) (h : runReads (withBytecode bs) os = some tr)
    (h' : runReads (withBytecode bs') os = some tr') (hv : tr.map Prod.fst = vs.map .ok)
    (hv' : tr'.map Prod.fst = vs.map .ok) (hp : PlainRun (withBytecode bs) os) (hp' : PlainRun (withBytecode bs') os) :
    (lastCursor (withBytecode bs) tr).consumed = (lastCursor (withBytecode bs') tr').consumed ∧
      ∀ k < (lastCursor (withBytecode bs) tr).consumed, bitAt bs k = bitAt bs' k := by
  obtain ⟨w, hw, hc, hs⟩ := runWrites_of_runReads h hv hp
  obtain ⟨w', hw', hc', hs'⟩ := runWrites_of_runReads h' hv' hp'
  rw [hl] at hw hc hs
  obtain rfl : w = w' := Option.some.inj (hw.symm.trans hw')
  have hcc := hc.symm.trans hc'
  exact ⟨hcc, fun k hk => (hs.2 k hk).symm.trans (hs'.2 k (hcc ▸ hk))⟩

theorem decode_injective_prefix :
    (lastCursor (withBytecode [0x3D#8, 0xAB#8, 0xFF#8])
        ((runReads (withBytecode [0x3D#8, 0xAB#8, 0xFF#8])
          [.readU .u3, .readBool, .readU .u4, .readU8]).getD [])).consumed =
      (lastCursor (withBytecode [0x3D#8, 0xAB#8, 0#8])
        ((runReads (withBytecode [0x3D#8, 0xAB#8, 0#8])
          [.readU .u3, .readBool, .readU .u4, .readU8]).getD [])).consumed ∧
    ∀ k < (lastCursor (withBytecode [0x3D#8, 0xAB#8, 0xFF#8])
        ((runReads (withBytecode [0x3D#8, 0xAB#8, 0xFF#8])
          [.readU .u3, .readBool, .readU .u4, .readU8]).getD [])).consumed,
      bitAt [0x3D#8, 0xAB#8, 0xFF#8] k = bitAt [0x3D#8, 0xAB#8, 0#8] k :=
  @decode_injective [0x3D#8, 0xAB#8, 0xFF#8] [0x3D#8, 0xAB#8, 0#8] [.readU .u3, .readBool, .readU .u4, .readU8] _ _
    [.bits .u3 5#3, .bool true, .bits .u4 3#4, .u8 0xAB#8] rfl (by decide) (by decide) (by decide) (by decide)
    (by decide) (by decide)

/-- `[0, 0, 1, 0]` and `[0, 0, 0, 0]` both read as the empty slice ending at byte 4, and writing the empty slice gives
`[0, 0, 0, 0]`: byte 2 is passed and never read. -/
theorem slice_gap_unread :
    runReads (withBytecode [0#8, 0#8, 1#8, 0#8]) [.readSlice] =
        some [(.ok (.slice []), ⟨[0#8, 0#8, 1#8, 0#8], 4, 0, false⟩)] ∧
      runReads (withBytecode [0#8, 0#8, 0#8, 0#8]) [.readSlice] =
        some [(.ok (.slice []), ⟨[0#8, 0#8, 0#8, 0#8], 4, 0, false⟩)] ∧
      runWrites (withBytecode [0#8, 0#8, 0#8, 0#8]) [.slice []] =
        some [(.ok (), ⟨[0#8, 0#8, 0#8, 0#8], 4, 0, false⟩)] ∧
      bitAt [0#8, 0#8, 1#8, 0#8] 16 ≠ bitAt [0#8, 0#8, 0#8, 0#8] 16 := by
  decide

end AluVm
