import AluVm.Cursor.Position

/-!
# Writing then reading

Writing fields from `Cursor::with` over zero bytes and reading them back from `Cursor::with` over the bytes written
gives every field back, with the reader where the writer was after each call, as long as no bit field crosses a byte
boundary (`round_trip`). The proof follows the writer. A write that returns `Ok` stores only into the bits from
`consumed` on, so the bits before it stay as they are to the end of the run (`runWrites_sameBelow`), and the bits
from `consumed` on are still zero (`Field.write_zeroFrom`); each read looks only at the bits of its own field
(`Field.read_after_write`), which hold at the end what the write stored.

A bit field whose bits cross into the next byte loses them: the store `byte |= data << bit_pos` shifts them out of the
byte, and `extract` masks within the byte (`u3_crossing_byte_lost`).
-/

namespace AluVm

open Cursor

/-! ## Byte strings that agree below a bit -/

/-- `bs'` has the length of `bs` and the same bits below `n`. -/
def SameBelow (bs bs' : List (BitVec 8)) (n : Nat) : Prop :=
  bs'.length = bs.length ∧ ∀ k < n, bitAt bs' k = bitAt bs k

namespace SameBelow

theorem refl (bs : List (BitVec 8)) (n : Nat) : SameBelow bs bs n := ⟨rfl, fun _ _ => rfl⟩

theorem trans {bs bs' bs'' : List (BitVec 8)} {n : Nat} (h : SameBelow bs bs' n) (h' : SameBelow bs' bs'' n) :
    SameBelow bs bs'' n :=
  ⟨h'.1.trans h.1, fun k hk => (h'.2 k hk).trans (h.2 k hk)⟩

theorem mono {bs bs' : List (BitVec 8)} {n n' : Nat} (h : SameBelow bs bs' n) (hn : n' ≤ n) : SameBelow bs bs' n' :=
  ⟨h.1, fun k hk => h.2 k (by omega)⟩

/-- Bytes below the bound are the same. -/
theorem byteAt_eq {bs bs' : List (BitVec 8)} {n i : Nat} (h : SameBelow bs bs' n) (hi : 8 * i + 8 ≤ n) :
    byteAt bs' i = byteAt bs i :=
  byteAt_eq_of_bitAt fun j hj => h.2 _ (by omega)

/-- A store into bytes `[s, e)` of what `bs` holds there extends the agreement from byte `s` to byte `e`. -/
theorem store {bs W W' : List (BitVec 8)} {s e : Nat} (hW : SameBelow bs W (8 * s))
    (hu : Unchanged W W' (8 * s) (8 * e)) (hb : ∀ i, s ≤ i → i < e → byteAt W' i = byteAt bs i) :
    SameBelow bs W' (8 * e) :=
  ⟨hu.1.trans hW.1, fun k hk => by
    by_cases hks : k < 8 * s
    · exact (hu.2 k (.inl hks)).trans (hW.2 k hks)
    · simp only [bitAt, hb (k / 8) (by omega) (by omega)]⟩

end SameBelow

/-- Every bit of `bs` from `n` on is zero. -/
def ZeroFrom (bs : List (BitVec 8)) (n : Nat) : Prop := ∀ k, n ≤ k → bitAt bs k = false

theorem zeroFrom_replicate (m : Nat) : ZeroFrom (List.replicate m 0#8) 0 := fun k _ => by
  simp [bitAt, byteAt, List.getD_eq_getElem?_getD, List.getElem?_replicate]
  split_ifs <;> simp

/-! ## What a write leaves for later calls -/

namespace Field

/-- A write that returns `Ok` keeps the bits before `consumed` and moves `consumed` on. -/
theorem write_sameBelow {f : Field} {c c' : Cursor} (h : f.write c = some (.ok (), c')) :
    SameBelow c.bytecode c'.bytecode c.consumed ∧ c.consumed ≤ c'.consumed := by
  have s := write_spec h
  obtain ⟨he, hc⟩ := s.ok rfl
  have hb := consumed_of_not_eof he
  exact ⟨⟨s.frame.1, fun k hk => s.frame.2 k (.inl (by omega))⟩, by omega⟩

/-- A write that returns `Ok` from zero bits leaves zero bits from where it ends. -/
theorem write_zeroFrom {f : Field} {c c' : Cursor} (h : f.write c = some (.ok (), c'))
    (hz : ZeroFrom c.bytecode c.consumed) : ZeroFrom c'.bytecode c'.consumed := fun k hk => by
  have s := write_spec h
  obtain ⟨he, hc⟩ := s.ok rfl
  have hb := consumed_of_not_eof he
  have hf := f.span_le_size
  rw [s.frame.2 k (.inr (by omega))]
  exact hz k (by omega)

end Field

/-- A run of writes that all return `Ok` keeps the bits before where it starts, and moves `consumed` on. -/
theorem runWrites_sameBelow : ∀ {c : Cursor} {fs : List Field} {tr : List (Except CursorError Unit × Cursor)},
    runWrites c fs = some tr → (∀ x ∈ tr, x.1 = .ok ()) →
      SameBelow c.bytecode (lastCursor c tr).bytecode c.consumed ∧ c.consumed ≤ (lastCursor c tr).consumed
  | c, [], tr, h, _ => by cases h; exact ⟨.refl _ _, le_rfl⟩
  | c, f :: fs, tr, h, hok => by
    obtain ⟨r, c', tr', h₁, h₂, rfl⟩ := runWrites_cons_eq_some h
    obtain rfl : r = .ok () := hok _ (List.mem_cons_self _ _)
    obtain ⟨hs, hle⟩ := Field.write_sameBelow h₁
    obtain ⟨hs', hle'⟩ := runWrites_sameBelow h₂ fun x hx => hok x (List.mem_cons_of_mem _ hx)
    rw [lastCursor_cons]
    exact ⟨hs.trans (hs'.mono hle), hle.trans hle'⟩

/-! ## Reading one field back -/

namespace Cursor

/-- A byte string holding `src` from byte `s` on reads `src` there. -/
theorem range_of_byteAt {bs src : List (BitVec 8)} {s : Nat} (hl : s + src.length ≤ bs.length)
    (h : ∀ j < src.length, byteAt bs (s + j) = byteAt src j) : range bs s (s + src.length) = some src := by
  rw [range, if_pos ⟨Nat.le_add_right _ _, hl⟩, Nat.add_sub_cancel_left, Option.some.injEq]
  refine List.ext_getElem (by simp; omega) fun j h₁ h₂ => ?_
  have := h j h₂
  rw [byteAt_eq_getElem (by omega), byteAt_eq_getElem h₂] at this
  simpa using this

/-- `bs[p] |= data << b` into zero bits, within the byte: the `n` bits from the bit offset are those of `data`. -/
theorem bitAt_after_deposit {data : BitVec 8} {n : Fin 8} {c c' : Cursor} (hw : deposit data n c = some (.ok (), c'))
    (hn : c.bitPos.val + n.val ≤ 8) (hz : ZeroFrom c.bytecode c.consumed) (he : c.eof = false) {i : Nat}
    (hi : i < n.val) : bitAt c'.bytecode (c.consumed + i) = data.getLsbD i := by
  obtain ⟨bs, hbs, hinc⟩ := Option.map_eq_some'.1 hw
  have hcb : c'.bytecode = bs := by simpa [hinc] using incBits_bytecode { c with bytecode := bs } n
  rw [hcb, bitAt_orByte hbs, hz _ (Nat.le_add_right _ _), consumed_of_not_eof he]
  simp only [bitOffset, show (8 * c.bytePos.val + c.bitPos.val + i) / 8 = c.bytePos.val by omega,
    show (8 * c.bytePos.val + c.bitPos.val + i) % 8 = c.bitPos.val + i by omega, Nat.add_sub_cancel_left]
  simp

/-- `extract` over bytes that agree with those a `deposit` left, up to the end of its field, returns the deposited
bits when the field stays in its byte and the bits it was ORed into were zero. -/
theorem extract_after_deposit {data : BitVec 8} {n : Fin 8} {c c' : Cursor} {B : List (BitVec 8)}
    (hw : deposit data n c = some (.ok (), c')) (hn : c.bitPos.val + n.val ≤ 8)
    (hd : ∀ j, n.val ≤ j → data.getLsbD j = false) (hz : ZeroFrom c.bytecode c.consumed)
    (hB : SameBelow c'.bytecode B c'.consumed) :
    extract { c with bytecode := B } n = some (.ok data, { c' with bytecode := B }) := by
  obtain ⟨he, hc⟩ := (deposit_spec hd hw).ok rfl
  obtain ⟨bs, hbs, hinc⟩ := Option.map_eq_some'.1 hw
  have hcb : c'.bytecode = bs := by simpa [hinc] using incBits_bytecode { c with bytecode := bs } n
  obtain ⟨hp, hbs'⟩ := orByte_eq_some hbs
  have hlen : c.bytePos.val < B.length := by rw [hB.1, hcb, hbs', List.length_set]; exact hp
  have hk : c.consumed = 8 * c.bytePos.val + c.bitPos.val := consumed_of_not_eof he
  have hbit : ∀ i < n.val, (byteAt B c.bytePos.val).getLsbD (c.bitPos.val + i) = data.getLsbD i := fun i hi => by
    rw [← bitAt_eq_getLsbD _ _ (by omega), hB.2 _ (by omega), ← Nat.add_assoc, ← hk]
    exact bitAt_after_deposit hw hn hz he hi
  have hval : (B[c.bytePos.val] &&& (maskLoop n.val 0#8 <<< c.bitPos.val)) >>> c.bitPos.val = data := by
    ext i
    rw [getLsbD_extracted, ← byteAt_eq_getElem hlen]
    by_cases hi : i.val < n.val
    · simp [hi, hbit i hi, show c.bitPos.val + i.val < 8 by omega]
    · simp [hi, hd i (by omega)]
  rw [extract, if_neg (by simp [he])]
  simp only [List.getElem?_eq_getElem hlen, Option.map_some', incBits_rebase hinc B, putValue_ok, hval]

theorem readBool_after_writeBool {b : Bool} {c c' : Cursor} {B : List (BitVec 8)}
    (hw : writeBool b c = some (.ok (), c')) (hz : ZeroFrom c.bytecode c.consumed)
    (hB : SameBelow c'.bytecode B c'.consumed) :
    readBool { c with bytecode := B } = some (.ok b, { c' with bytecode := B }) := by
  have he : c.eof = false := ((writeBool_spec hw).ok rfl).1
  have hd : ∀ j, (1 : Fin 8).val ≤ j → (if b then 1#8 else 0#8).getLsbD j = false := fun j hj => by
    cases b <;> simp [show j ≠ 0 by simp at hj; omega]
  rw [readBool, if_neg (by simp [he]), extract_after_deposit hw (by simp; omega) hd hz hB]
  cases b <;> rfl

theorem tryInto_setWidth {w : Width} (v : BitVec w.bits) : tryInto w (v.setWidth 8) = some v := by
  have h8 : v.toNat < 256 := lt_of_lt_of_le v.isLt (Nat.pow_le_pow_right (n := 2) (by decide) w.bits_lt.le)
  simp [tryInto, BitVec.toNat_setWidth, Nat.mod_eq_of_lt h8, v.isLt]

theorem readUN_after_writeUN {w : Width} {v : BitVec w.bits} {c c' : Cursor} {B : List (BitVec 8)}
    (hw : writeUN w v c = some (.ok (), c')) (hin : c.bitPos.val + w.bits ≤ 8) (hz : ZeroFrom c.bytecode c.consumed)
    (hB : SameBelow c'.bytecode B c'.consumed) :
    readUN w { c with bytecode := B } = some (.ok v, { c' with bytecode := B }) := by
  have hd : ∀ j, w.bitCount.val ≤ j → (v.setWidth 8).getLsbD j = false := fun j hj => by
    simp [BitVec.getLsbD_ge v j hj]
  rw [readUN, extract_after_deposit hw hin hd hz hB]
  simp [tryInto_setWidth]

theorem readU8_after_writeU8 {v : BitVec 8} {c c' : Cursor} {B : List (BitVec 8)}
    (hw : writeU8 v c = some (.ok (), c')) (hB : SameBelow c'.bytecode B c'.consumed) :
    readU8 { c with bytecode := B } = some (.ok v, { c' with bytecode := B }) := by
  obtain ⟨bs, hbs, hinc⟩ := Option.bind_eq_some.1 hw
  obtain ⟨hp, rfl⟩ := setByte_eq_some hbs
  have h0 : c.bitPos.val = 0 := (incBytes_ok hinc).1
  have he : c.eof = false := (incBytes_ok hinc).2.1
  have hc := incBytes_consumed hinc
  simp only [consumed_bytecode, consumed_of_aligned h0 he] at hc
  have hcb : c'.bytecode = c.bytecode.set c.bytePos.val v := (incBytes_bytecode hinc).1
  have hlen : c.bytePos.val < B.length := by rw [hB.1, hcb, List.length_set]; exact hp
  have hbyte : B[c.bytePos.val] = v := by
    rw [← byteAt_eq_getElem hlen, hB.byteAt_eq (by simp [hc]), hcb, byteAt_set, if_pos ⟨rfl, hp⟩]
  rw [readU8, if_neg (by simp [he])]
  simp only [List.getElem?_eq_getElem hlen, hbyte, Option.some_bind, incBytes_rebase hinc B, Option.map_some',
    putValue_ok]

theorem fromLeBytes_toLeBytes (v : BitVec 16) : fromLeBytes (toLeBytes v) = v := by
  ext i
  simp only [fromLeBytes, toLeBytes, List.getD_cons_succ, List.getD_cons_zero, BitVec.getLsbD_append,
    BitVec.getLsbD_extractLsb']
  by_cases hi : i.val < 8
  · simp [hi]
  · simp [hi, show i.val - 8 < 8 by omega, show 8 + (i.val - 8) = i.val by omega]

theorem readLe16_after_writeLe16 {v : BitVec 16} {c c' : Cursor} {B : List (BitVec 8)}
    (hw : writeLe16 v c = some (.ok (), c')) (hB : SameBelow c'.bytecode B c'.consumed) :
    readLe16 { c with bytecode := B } = some (.ok v, { c' with bytecode := B }) := by
  simp only [writeLe16, Option.bind_eq_some] at hw
  obtain ⟨bs₁, h₁, bs₂, h₂, hinc⟩ := hw
  obtain ⟨hp₁, rfl⟩ := setByte_eq_some h₁
  obtain ⟨hp₂, rfl⟩ := setByte_eq_some h₂
  have h0 : c.bitPos.val = 0 := (incBytes_ok hinc).1
  have he : c.eof = false := (incBytes_ok hinc).2.1
  have hc := incBytes_consumed hinc
  simp only [consumed_bytecode, consumed_of_aligned h0 he] at hc
  have hcb := (incBytes_bytecode hinc).1
  simp only [List.length_set] at hp₂
  have hr : range B c.bytePos.val (c.bytePos.val + (toLeBytes v).length) = some (toLeBytes v) := by
    refine range_of_byteAt (by rw [hB.1, hcb]; simp [toLeBytes]; omega) fun j hj => ?_
    rw [hB.byteAt_eq (by simp [toLeBytes] at hj; omega), hcb]
    match j, hj with
    | 0, _ => simp [byteAt_set, hp₁, toLeBytes, byteAt]
    | 1, _ => simp [byteAt_set, hp₂, toLeBytes, byteAt]
  rw [show (toLeBytes v).length = 2 from rfl] at hr
  rw [readLe16, if_neg (by simp [he])]
  simp only [hr, Option.some_bind, incBytes_rebase hinc B, Option.map_some', putValue_ok, fromLeBytes_toLeBytes]

theorem readBytes32_after_writeBytes32 {v : Bytes32} {c c' : Cursor} {B : List (BitVec 8)}
    (hw : writeBytes32 v c = some (.ok (), c')) (hB : SameBelow c'.bytecode B c'.consumed) :
    readBytes32 { c with bytecode := B } = some (.ok v, { c' with bytecode := B }) := by
  obtain ⟨bs, hbs, hinc⟩ := Option.bind_eq_some.1 hw
  have h0 : c.bitPos.val = 0 := (incBytes_ok hinc).1
  have he : c.eof = false := (incBytes_ok hinc).2.1
  have hc := incBytes_consumed hinc
  simp only [consumed_bytecode, consumed_of_aligned h0 he] at hc
  have hcb : c'.bytecode = bs := (incBytes_bytecode hinc).1
  obtain ⟨hl, -, hend, -⟩ := length_copyFromSlice hbs
  obtain ⟨bytes, h32⟩ := v
  have hr : range B c.bytePos.val (c.bytePos.val + bytes.length) = some bytes :=
    range_of_byteAt (by rw [hB.1, hcb, hl, h32]; exact hend) fun j hj => by
      rw [hB.byteAt_eq (by rw [hc]; simp only [h32] at hj; omega), hcb, byteAt_copyFromSlice hbs,
        if_pos (by simp only [h32] at hj; omega), Nat.add_sub_cancel_left]
  rw [h32] at hr
  obtain ⟨-, hle, hx⟩ := range_eq_some hr
  rw [readBytes32, if_neg (by simp [he])]
  simp only [dif_pos hle, incBytes_rebase hinc B, Option.map_some', putValue_ok, Option.some.injEq, Prod.mk.injEq,
    Except.ok.injEq, Bytes32.mk.injEq, and_true]
  simpa using hx.symm

theorem readSlice_after_writeSlice {v : List (BitVec 8)} {c c' : Cursor} {B : List (BitVec 8)}
    (hw : writeSlice v c = some (.ok (), c')) (hB : SameBelow c'.bytecode B c'.consumed) :
    readSlice { c with bytecode := B } = some (.ok v, { c' with bytecode := B }) := by
  simp only [writeSlice] at hw
  split_ifs at hw with hv
  · simp at hw
  obtain ⟨⟨r₁, c₁⟩, h₁, hw⟩ := Option.bind_eq_some.1 hw
  rcases r₁ with e | u
  · simp at hw
  obtain ⟨bs, hbs, hw⟩ := Option.bind_eq_some.1 hw
  obtain ⟨m, hm, hinc⟩ := Option.bind_eq_some.1 hw
  obtain ⟨h0, he, he₁, hb₁, hp₁⟩ := writeLe16_ok h₁
  have hm' := u16Add_eq_some hm
  have hc := incBytes_consumed hinc
  have hcb : c'.bytecode = bs := (incBytes_bytecode hinc).1
  obtain ⟨hl, -, hend, -⟩ := length_copyFromSlice hbs
  have hc₁ : c₁.consumed = 8 * c₁.bytePos.val := consumed_of_aligned (by rw [hb₁]; exact h0) he₁
  simp only [consumed_bytecode, hc₁, hm'] at hc
  have hB₁ : SameBelow c₁.bytecode B c₁.consumed :=
    ⟨by rw [hB.1, hcb, hl], fun k hk => by
      rw [hB.2 k (by omega), hcb, (unchanged_copyFromSlice hbs).2 k (.inl (by omega))]⟩
  have hlen : (BitVec.ofNat 16 v.length).toNat = v.length := by simp; omega
  have hr : range B c₁.bytePos.val (c₁.bytePos.val + v.length) = some v :=
    range_of_byteAt (by rw [hB.1, hcb, hl]; exact hend) fun j hj => by
      rw [hB.byteAt_eq (by omega), hcb, byteAt_copyFromSlice hbs, if_pos (by omega), Nat.add_sub_cancel_left]
  rw [readSlice, if_neg (by simp [he])]
  simp only [readU16, readLe16_after_writeLe16 h₁ hB₁, Option.some_bind, hlen, hm, incBytes_rebase hinc B, hr,
    Option.map_some']

end Cursor

namespace Field

/-- The field stays in the byte its write starts in: a bit field does not cross a byte boundary. Register values are
left out: `read_value` returns them unsigned. -/
def Within : Field → Cursor → Prop
  | .bits w _, c => c.bitPos.val + w.bits ≤ 8
  | .value _ _, _ => False
  | _, _ => True

instance (f : Field) (c : Cursor) : Decidable (f.Within c) :=
  match f with
  | .bool _ | .u8 _ | .u16 _ | .i16 _ | .bytes32 _ | .slice _ => inferInstanceAs (Decidable True)
  | .bits _ _ => inferInstanceAs (Decidable (_ ≤ _))
  | .value _ _ => inferInstanceAs (Decidable False)

/-- The read of a field, over bytes that agree with those its write left up to where the write ended, returns the
field and moves as the write did, when the field stays in its byte and its bits were zero before. -/
theorem read_after_write {f : Field} {c c' : Cursor} {B : List (BitVec 8)} (h : f.write c = some (.ok (), c'))
    (hin : f.Within c) (hz : ZeroFrom c.bytecode c.consumed) (hB : SameBelow c'.bytecode B c'.consumed) :
    f.readOp.call { c with bytecode := B } = some (.ok f, { c' with bytecode := B }) := by
  cases f with
  | bool b => simp only [readOp, ReadOp.call, mapResult, readBool_after_writeBool h hz hB]; rfl
  | bits w v => simp only [readOp, ReadOp.call, mapResult, readUN_after_writeUN h hin hz hB]; rfl
  | u8 v => simp only [readOp, ReadOp.call, mapResult, readU8_after_writeU8 h hB]; rfl
  | u16 v => simp only [readOp, ReadOp.call, mapResult, readU16, readLe16_after_writeLe16 h hB]; rfl
  | i16 v => simp only [readOp, ReadOp.call, mapResult, readI16, readLe16_after_writeLe16 h hB]; rfl
  | bytes32 v => simp only [readOp, ReadOp.call, mapResult, readBytes32_after_writeBytes32 h hB]; rfl
  | slice v => simp only [readOp, ReadOp.call, mapResult, readSlice_after_writeSlice h hB]; rfl
  | value reg n => exact hin.elim

end Field

/-! ## Runs -/

/-- Every field of a run of writes stays in the byte its write starts in. -/
def WithinRun : Cursor → List Field → Prop
  | _, [] => True
  | c, f :: fs => f.Within c ∧ ∀ x ∈ f.write c, WithinRun x.2 fs

instance decWithinRun : (c : Cursor) → (fs : List Field) → Decidable (WithinRun c fs)
  | _, [] => isTrue trivial
  | c, f :: fs =>
    have : DecidablePred fun x : Except CursorError Unit × Cursor => WithinRun x.2 fs := fun x => decWithinRun x.2 fs
    inferInstanceAs (Decidable (f.Within c ∧ ∀ x ∈ f.write c, WithinRun x.2 fs))

/-- Reading back a run of writes that all return `Ok`, from zero bits on and with no field crossing a byte boundary,
over bytes that agree with those written up to where the run ended: every read returns its field, and the reader is
where the writer was, over those bytes. -/
theorem runReads_after_runWrites : ∀ {c : Cursor} {fs : List Field} {tr : List (Except CursorError Unit × Cursor)}
    {B : List (BitVec 8)}, runWrites c fs = some tr → (∀ x ∈ tr, x.1 = .ok ()) → WithinRun c fs →
      ZeroFrom c.bytecode c.consumed → SameBelow (lastCursor c tr).bytecode B (lastCursor c tr).consumed →
      runReads { c with bytecode := B } (fs.map Field.readOp) =
        some (List.zipWith (fun f x => (.ok f, { x.2 with bytecode := B })) fs tr)
  | c, [], tr, B, h, _, _, _, _ => by cases h; rfl
  | c, f :: fs, tr, B, h, hok, ⟨hin, hins⟩, hz, hB => by
    obtain ⟨r, c', tr', h₁, h₂, rfl⟩ := runWrites_cons_eq_some h
    obtain rfl : r = .ok () := hok _ (List.mem_cons_self _ _)
    have hok' : ∀ x ∈ tr', x.1 = .ok () := fun x hx => hok x (List.mem_cons_of_mem _ hx)
    rw [lastCursor_cons] at hB
    obtain ⟨hs, hle⟩ := runWrites_sameBelow h₂ hok'
    have hB' : SameBelow c'.bytecode B c'.consumed := hs.trans (hB.mono hle)
    simp only [List.map_cons, runReads, Field.read_after_write h₁ hin hz hB', Option.some_bind,
      runReads_after_runWrites h₂ hok' (hins _ h₁) (Field.write_zeroFrom h₁ hz) hB, Option.map_some',
      List.zipWith_cons_cons]

/-- Fields written from `Cursor::with` over zero bytes, every write returning `Ok` and no bit field crossing a byte
boundary, read back from `Cursor::with` over the bytes written: every read returns the field written, and after every
call the reader's byte offset, bit offset and flag are the writer's. -/
theorem round_trip {m : Nat} {fs : List Field} {tr : List (Except CursorError Unit × Cursor)} {bs : List (BitVec 8)}
    (h : runWrites (withBytecode (List.replicate m 0#8)) fs = some tr) (hok : ∀ x ∈ tr, x.1 = .ok ())
    (hin : WithinRun (withBytecode (List.replicate m 0#8)) fs)
    (hbs : (lastCursor (withBytecode (List.replicate m 0#8)) tr).bytecode = bs) :
    runReads (withBytecode bs) (fs.map Field.readOp) =
      some (List.zipWith (fun f x => (.ok f, { x.2 with bytecode := bs })) fs tr) :=
  runReads_after_runWrites h hok hin (zeroFrom_replicate m) (hbs ▸ .refl _ _)

theorem round_trip_mixed :
    runReads (withBytecode [0x3D#8, 0xAB#8, 0x34#8, 0x12#8, 2#8, 0#8, 7#8, 9#8])
        ([.bits .u3 5#3, .bool true, .bits .u4 3#4, .u8 0xAB#8, .u16 0x1234#16, .slice [7#8, 9#8]].map Field.readOp) =
      some (List.zipWith
        (fun f x => (.ok f, { x.2 with bytecode := [0x3D#8, 0xAB#8, 0x34#8, 0x12#8, 2#8, 0#8, 7#8, 9#8] }))
        [.bits .u3 5#3, .bool true, .bits .u4 3#4, .u8 0xAB#8, .u16 0x1234#16, .slice [7#8, 9#8]]
        ((runWrites (withBytecode (List.replicate 8 0#8))
          [.bits .u3 5#3, .bool true, .bits .u4 3#4, .u8 0xAB#8, .u16 0x1234#16, .slice [7#8, 9#8]]).getD [])) :=
  round_trip (m := 8) (by decide) (by decide) (by decide) (by decide)

/-- Three `u3` fields `0`, `0`, `4` written from bit 0 of two zero bytes read back as `0`, `0`, `0`: the third starts
at bit 6, and its top bit is shifted out of the byte. -/
theorem u3_crossing_byte_lost :
    runWrites (withBytecode [0#8, 0#8]) [.bits .u3 0#3, .bits .u3 0#3, .bits .u3 4#3] =
        some [(.ok (), ⟨[0#8, 0#8], 0, 3, false⟩), (.ok (), ⟨[0#8, 0#8], 0, 6, false⟩),
          (.ok (), ⟨[0#8, 0#8], 1, 1, false⟩)] ∧
      runReads (withBytecode [0#8, 0#8]) [.readU .u3, .readU .u3, .readU .u3] =
        some [(.ok (.bits .u3 0#3), ⟨[0#8, 0#8], 0, 3, false⟩), (.ok (.bits .u3 0#3), ⟨[0#8, 0#8], 0, 6, false⟩),
          (.ok (.bits .u3 0#3), ⟨[0#8, 0#8], 1, 1, false⟩)] := by
  decide

end AluVm
