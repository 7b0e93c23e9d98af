import AluVm.Cursor.RoundTrip
import AluVm.Cursor.Locality

/-!
# The bits the writer lays down

The spec lays fields out as their bits, least significant first, in the order the cursor passes them: a bool as one
bit, a `uW` as its `W` bits, a `u8`, `u16` or `i16` as its 8 or 16 bits (a 16-bit word little endian), a 32-byte
block and a register value as their bytes, and a slice as its 16-bit length and then its bytes (`Field.encode`,
`encode`). A run of writes from `Cursor::with` over zero bytes, every call returning `Ok` and no bit field crossing a
byte boundary, leaves the encoding of its fields followed by zero bits (`runWrites_encode`), when it writes no slice:
`write_slice` passes two more bytes than its encoding holds (`slice_advances_four_bytes`), so every field after a
slice lies 16 bits later than the encoding puts it. Register values are left out, as in the round trip.

Over bytes that are not zero the same run lays down the encoding only where it stores whole bytes: `write_bool` and
`write_u1` … `write_u7` OR their bits into those already there (`Field.orsInto`, `orMask`), so every bit a bit field
passes ends as the encoding's bit ORed with the bit that was there, and every other bit the run passes as the
encoding's bit (`runWrites_overlay`). The writer therefore needs zero bits wherever it writes a bit field.
-/

namespace AluVm

open Cursor

/-! ## The encoding -/

/-- Modelled from the spec: the bits of a byte string, each byte least significant bit first. -/
def bytesBits (bs : List (BitVec 8)) : List Bool := bs.flatMap fun b => List.ofFn fun i : Fin 8 => b.getLsbD i

/-- Modelled from the spec: the bits of a field, least significant first; a 16-bit word is little endian. -/
def Field.encode : Field → List Bool
  | .bool b => [b]
  | .bits w v => List.ofFn fun i : Fin w.bits => v.getLsbD i
  | .u8 v => List.ofFn fun i : Fin 8 => v.getLsbD i
  | .u16 v | .i16 v => List.ofFn fun i : Fin 16 => v.getLsbD i
  | .bytes32 v => bytesBits v.bytes
  | .slice v => (List.ofFn fun i : Fin 16 => (BitVec.ofNat 16 v.length).getLsbD i) ++ bytesBits v
  | .value reg n => bytesBits (n.reshape (reg.layout.usingSign n.layout)).bytes

/-- Modelled from the spec: fields encoded one after the other. -/
def encode (fs : List Field) : List Bool := fs.flatMap Field.encode

@[simp] theorem encode_nil : encode [] = [] := rfl

@[simp] theorem encode_cons (f : Field) (fs : List Field) : encode (f :: fs) = f.encode ++ encode fs := rfl

@[simp] theorem length_bytesBits (bs : List (BitVec 8)) : (bytesBits bs).length = 8 * bs.length := by
  induction bs with
  | nil => rfl
  | cons b bs ih =>
    simp only [bytesBits, List.flatMap_cons, List.length_append, List.length_ofFn] at ih ⊢
    rw [ih, List.length_cons]
    omega

theorem bitAt_cons_add_eight (b : BitVec 8) (bs : List (BitVec 8)) (i : Nat) :
    bitAt (b :: bs) (i + 8) = bitAt bs i := by
  simp only [bitAt, show (i + 8) / 8 = i / 8 + 1 by omega, Nat.add_mod_right, byteAt, List.getD_cons_succ]

theorem getD_ofFn {n : Nat} (g : Fin n → Bool) {i : Nat} (hi : i < n) :
    (List.ofFn g).getD i false = g ⟨i, hi⟩ := by
  rw [List.getD_eq_getElem _ _ (by simpa using hi), List.getElem_ofFn]

/-- The encoding of a byte string has its bits, and `false` past its end. -/
theorem getD_bytesBits (bs : List (BitVec 8)) (i : Nat) : (bytesBits bs).getD i false = bitAt bs i := by
  induction bs generalizing i with
  | nil => simp [bytesBits, bitAt, byteAt]
  | cons b bs ih =>
    have hb : bytesBits (b :: bs) = (List.ofFn fun j : Fin 8 => b.getLsbD j) ++ bytesBits bs := rfl
    rw [hb]
    by_cases hi : i < 8
    · rw [List.getD_append _ _ _ _ (by rw [List.length_ofFn]; exact hi), getD_ofFn _ hi, bitAt,
        Nat.div_eq_of_lt hi, Nat.mod_eq_of_lt hi]
      rfl
    · obtain ⟨j, rfl⟩ : ∃ j, i = j + 8 := ⟨i - 8, by omega⟩
      rw [List.getD_append_right _ _ _ _ (by rw [List.length_ofFn]; omega), List.length_ofFn, Nat.add_sub_cancel, ih,
        bitAt_cons_add_eight]

/-- The encoding of a field other than a slice has the bits the writer passes. -/
theorem Field.length_encode {f : Field} (hs : ∀ v, f ≠ .slice v) : f.encode.length = f.size := by
  cases f with
  | slice v => exact absurd rfl (hs v)
  | bytes32 v => simp only [encode, size, length_bytesBits, v.length_eq]
  | value reg n =>
    simp only [encode, size, length_bytesBits]
    exact congrArg (8 * ·) (len_reshape_register reg n)
  | _ => simp only [encode, size, List.length_ofFn, List.length_singleton]

/-- Whether the write of the field ORs its bits into those already there (`|=`), as `write_bool` and `write_u1` …
`write_u7` do; the other writes store whole bytes. -/
def Field.orsInto : Field → Bool
  | .bool _ | .bits _ _ => true
  | .u8 _ | .u16 _ | .i16 _ | .bytes32 _ | .slice _ | .value _ _ => false

/-- For each bit of the encoding of the fields, whether its write ORs it into the bit already there. -/
def orMask (fs : List Field) : List Bool := fs.flatMap fun f => List.replicate f.encode.length f.orsInto

/-! ## What one write lays down -/

namespace Cursor

theorem bitAt_after_writeU8 {v : BitVec 8} {c c' : Cursor} (hw : writeU8 v c = some (.ok (), c')) {i : Nat}
    (hi : i < 8) : bitAt c'.bytecode (c.consumed + i) = v.getLsbD i := by
  obtain ⟨bs, hbs, hinc⟩ := Option.bind_eq_some.1 hw
  obtain ⟨hp, rfl⟩ := setByte_eq_some hbs
  obtain ⟨h0, he, -⟩ := incBytes_ok hinc
  rw [(incBytes_bytecode hinc).1, consumed_of_aligned (c := c) h0 he, bitAt_set, if_pos ⟨by omega, hp⟩]
  congr 1
  omega

theorem bitAt_after_writeLe16 {v : BitVec 16} {c c' : Cursor} (hw : writeLe16 v c = some (.ok (), c')) {i : Nat}
    (hi : i < 16) : bitAt c'.bytecode (c.consumed + i) = v.getLsbD i := by
  simp only [writeLe16, Option.bind_eq_some] at hw
  obtain ⟨bs₁, h₁, bs₂, h₂, hinc⟩ := hw
  obtain ⟨hp₁, rfl⟩ := setByte_eq_some h₁
  obtain ⟨hp₂, rfl⟩ := setByte_eq_some h₂
  obtain ⟨h0, he, -⟩ := incBytes_ok hinc
  rw [(incBytes_bytecode hinc).1, consumed_of_aligned (c := c) h0 he, bitAt_set, bitAt_set]
  have hlo : (toLeBytes v).getD 0 0#8 = v.extractLsb' 0 8 := rfl
  have hhi : (toLeBytes v).getD 1 0#8 = v.extractLsb' 8 8 := rfl
  by_cases h8 : i < 8
  · rw [if_neg (by omega), if_pos ⟨by omega, hp₁⟩, hlo, BitVec.getLsbD_extractLsb',
      show (8 * c.bytePos.val + i) % 8 = i by omega]
    simp only [h8, decide_True, zero_add, Bool.true_and]
  · rw [if_pos ⟨by omega, hp₂⟩, hhi, BitVec.getLsbD_extractLsb', show (8 * c.bytePos.val + i) % 8 = i - 8 by omega,
      show 8 + (i - 8) = i by omega]
    simp only [show i - 8 < 8 by omega, decide_True, Bool.true_and]

theorem bitAt_after_writeBytes32 {v : Bytes32} {c c' : Cursor} (hw : writeBytes32 v c = some (.ok (), c'))
    {i : Nat} (hi : i < 256) : bitAt c'.bytecode (c.consumed + i) = bitAt v.bytes i := by
  obtain ⟨bs, hbs, hinc⟩ := Option.bind_eq_some.1 hw
  obtain ⟨h0, he, -⟩ := incBytes_ok hinc
  rw [(incBytes_bytecode hinc).1, consumed_of_aligned (c := c) h0 he, bitAt_copyFromSlice hbs (by omega) (by omega),
    Nat.add_sub_cancel_left]

/-- `bs[p] |= data << b` within the byte: the `n` bits from the bit offset are the old ones ORed with those of `data`. -/
theorem bitAt_deposit_or {data : BitVec 8} {n : Fin 8} {c c' : Cursor} (hw : deposit data n c = some (.ok (), c'))
    (hn : c.bitPos.val + n.val ≤ 8) (he : c.eof = false) {i : Nat} (hi : i < n.val) :
    bitAt c'.bytecode (c.consumed + i) = (bitAt c.bytecode (c.consumed + i) || data.getLsbD i) := by
  obtain ⟨bs, hbs, hinc⟩ := Option.map_eq_some'.1 hw
  have hcb : c'.bytecode = bs := by simpa [hinc] using incBits_bytecode { c with bytecode := bs } n
  rw [hcb, bitAt_orByte hbs, consumed_of_not_eof he]
  simp only [bitOffset, show (8 * c.bytePos.val + c.bitPos.val + i) / 8 = c.bytePos.val by omega,
    show (8 * c.bytePos.val + c.bitPos.val + i) % 8 = c.bitPos.val + i by omega, Nat.add_sub_cancel_left]
  simp

end Cursor

/-- A write that returns `Ok` from zero bits, other than of a slice and with its bits in one byte, lays down the
encoding of its field. -/
theorem Field.write_encode {f : Field} {c c' : Cursor} (h : f.write c = some (.ok (), c')) (hin : f.Within c)
    (hs : ∀ v, f ≠ .slice v) (hz : ZeroFrom c.bytecode c.consumed) {i : Nat} (hi : i < f.size) :
    bitAt c'.bytecode (c.consumed + i) = f.encode.getD i false := by
  cases f with
  | bool b =>
    obtain rfl : i = 0 := by simp only [size] at hi; omega
    rw [bitAt_after_deposit h (by omega) hz ((writeBool_spec h).ok rfl).1 (by decide)]
    cases b <;> rfl
  | bits w v =>
    rw [bitAt_after_deposit h hin hz ((writeUN_spec h).ok rfl).1 hi, encode, getD_ofFn _ hi]
    simp [BitVec.getLsbD_setWidth, show i < 8 by have := w.bits_lt; simp only [size] at hi; omega]
  | u8 v => rw [bitAt_after_writeU8 h hi, encode, getD_ofFn _ hi]
  | u16 v | i16 v => rw [bitAt_after_writeLe16 h hi, encode, getD_ofFn _ hi]
  | bytes32 v => rw [bitAt_after_writeBytes32 h hi, encode, getD_bytesBits]
  | slice v => exact absurd rfl (hs v)
  | value reg n => exact hin.elim

/-- A write that returns `Ok`, other than of a slice and with its bits in one byte, over any bits: each bit it passes
is the encoding's bit, ORed with the bit that was there for a bool or a bit field. -/
theorem Field.write_overlay {f : Field} {c c' : Cursor} (h : f.write c = some (.ok (), c')) (hin : f.Within c)
    (hs : ∀ v, f ≠ .slice v) {i : Nat} (hi : i < f.size) :
    bitAt c'.bytecode (c.consumed + i) = (f.encode.getD i false || f.orsInto && bitAt c.bytecode (c.consumed + i)) := by
  cases f with
  | bool b =>
    obtain rfl : i = 0 := by simp only [size] at hi; omega
    rw [bitAt_deposit_or h (by omega) ((writeBool_spec h).ok rfl).1 (by decide)]
    cases b <;> simp [encode, orsInto]
  | bits w v =>
    have hw := w.bits_lt
    rw [bitAt_deposit_or h hin ((writeUN_spec h).ok rfl).1 hi, encode, getD_ofFn _ hi]
    simp [orsInto, BitVec.getLsbD_setWidth, Bool.or_comm, show i < 8 by simp only [size] at hi; omega]
  | u8 v => rw [bitAt_after_writeU8 h hi, encode, getD_ofFn _ hi, orsInto, Bool.false_and, Bool.or_false]
  | u16 v | i16 v => rw [bitAt_after_writeLe16 h hi, encode, getD_ofFn _ hi, orsInto, Bool.false_and, Bool.or_false]
  | bytes32 v => rw [bitAt_after_writeBytes32 h hi, encode, getD_bytesBits, orsInto, Bool.false_and, Bool.or_false]
  | slice v => exact absurd rfl (hs v)
  | value reg n => exact hin.elim

/-! ## Runs -/

/-- A run of writes that all return `Ok` from zero bits, with no slice and every bit field in one byte, lays down the
encoding of its fields from where it starts, and zero bits after them. -/
theorem runWrites_encode_from : ∀ {c : Cursor} {fs : List Field} {tr : List (Except CursorError Unit × Cursor)},
    runWrites c fs = some tr → (∀ x ∈ tr, x.1 = .ok ()) → WithinRun c fs → (∀ v, Field.slice v ∉ fs) →
      ZeroFrom c.bytecode c.consumed → ∀ i, bitAt (lastCursor c tr).bytecode (c.consumed + i) = (encode fs).getD i false
  | c, [], tr, h, _, _, _, hz, i => by
    cases h
    simpa using hz _ (Nat.le_add_right _ i)
  | c, f :: fs, tr, h, hok, ⟨hin, hins⟩, hs, hz, i => by
    obtain ⟨r, c', tr', h₁, h₂, rfl⟩ := runWrites_cons_eq_some h
    obtain rfl : r = .ok () := hok _ (List.mem_cons_self _ _)
    have hok' : ∀ x ∈ tr', x.1 = .ok () := fun x hx => hok x (List.mem_cons_of_mem _ hx)
    have hf : ∀ v, f ≠ .slice v := fun v hv => hs v (hv ▸ List.mem_cons_self _ _)
    have hc : c'.consumed = c.consumed + f.size := ((Field.write_spec h₁).ok rfl).2
    have hl := Field.length_encode hf
    rw [lastCursor_cons, encode_cons]
    by_cases hi : i < f.size
    · rw [(runWrites_sameBelow h₂ hok').1.2 _ (by omega), Field.write_encode h₁ hin hf hz hi,
        List.getD_append _ _ _ _ (by omega)]
    · rw [List.getD_append_right _ _ _ _ (by omega), hl, show c.consumed + i = c'.consumed + (i - f.size) by omega]
      exact runWrites_encode_from h₂ hok' (hins _ h₁) (fun v hv => hs v (List.mem_cons_of_mem _ hv))
        (Field.write_zeroFrom h₁ hz) _

/-- Fields written from `Cursor::with` over zero bytes, every write returning `Ok`, no bit field crossing a byte
boundary and no slice among them: bit `k` of the bytes written is bit `k` of the encoding of the fields, and `false`
past its end. -/
theorem runWrites_encode {m : Nat} {fs : List Field} {tr : List (Except CursorError Unit × Cursor)}
    (h : runWrites (withBytecode (List.replicate m 0#8)) fs = some tr) (hok : ∀ x ∈ tr, x.1 = .ok ())
    (hin : WithinRun (withBytecode (List.replicate m 0#8)) fs) (hs : ∀ v, Field.slice v ∉ fs) (k : Nat) :
    bitAt (lastCursor (withBytecode (List.replicate m 0#8)) tr).bytecode k = (encode fs).getD k false := by
  simpa using runWrites_encode_from h hok hin hs (zeroFrom_replicate m) k

theorem runWrites_encode_mixed :
    bitAt (lastCursor (withBytecode (List.replicate 4 0#8))
        ((runWrites (withBytecode (List.replicate 4 0#8))
          [.bits .u3 5#3, .bool true, .bits .u4 3#4, .u8 0xAB#8, .u16 0x1234#16]).getD [])).bytecode 3 =
      (encode [.bits .u3 5#3, .bool true, .bits .u4 3#4, .u8 0xAB#8, .u16 0x1234#16]).getD 3 false :=
  runWrites_encode (m := 4) (by decide) (by decide) (by decide) (by simp) 3

/-- A run of writes that all return `Ok`, with no slice and every bit field in one byte, over any bits: every bit it
passes is the encoding's bit, ORed with the bit that was there where a bool or a bit field is written. -/
theorem runWrites_overlay : ∀ {c : Cursor} {fs : List Field} {tr : List (Except CursorError Unit × Cursor)},
    runWrites c fs = some tr → (∀ x ∈ tr, x.1 = .ok ()) → WithinRun c fs → (∀ v, Field.slice v ∉ fs) →
      ∀ i < (encode fs).length, bitAt (lastCursor c tr).bytecode (c.consumed + i) =
        ((encode fs).getD i false || (orMask fs).getD i false && bitAt c.bytecode (c.consumed + i))
  | c, [], tr, h, _, _, _, i, hi => absurd hi (Nat.not_lt_zero i)
  | c, f :: fs, tr, h, hok, ⟨hin, hins⟩, hs, i, hi => by
    obtain ⟨r, c', tr', h₁, h₂, rfl⟩ := runWrites_cons_eq_some h
    obtain rfl : r = .ok () := hok _ (List.mem_cons_self _ _)
    have hok' : ∀ x ∈ tr', x.1 = .ok () := fun x hx => hok x (List.mem_cons_of_mem _ hx)
    have hf : ∀ v, f ≠ .slice v := fun v hv => hs v (hv ▸ List.mem_cons_self _ _)
    have hc : c'.consumed = c.consumed + f.size := ((Field.write_spec h₁).ok rfl).2
    have hl := Field.length_encode hf
    have hm : orMask (f :: fs) = List.replicate f.encode.length f.orsInto ++ orMask fs := rfl
    rw [encode_cons, List.length_append] at hi
    rw [lastCursor_cons, hm, encode_cons]
    by_cases hi' : i < f.size
    · rw [(runWrites_sameBelow h₂ hok').1.2 _ (by omega), Field.write_overlay h₁ hin hf hi',
        List.getD_append _ _ _ _ (by omega), List.getD_append _ _ _ _ (by simp; omega),
        List.getD_eq_getElem (List.replicate _ f.orsInto) false (by simp; omega), List.getElem_replicate]
    · rw [List.getD_append_right _ _ _ _ (by omega), List.getD_append_right _ _ _ _ (by simp; omega),
        List.length_replicate, hl, show c.consumed + i = c'.consumed + (i - f.size) by omega,
        runWrites_overlay h₂ hok' (hins _ h₁) (fun v hv => hs v (List.mem_cons_of_mem _ hv)) _ (by omega),
        (Field.write_unchanged h₁).2 _ (.inr (by omega))]

theorem runWrites_overlay_bits_u16 :
    bitAt (lastCursor (withBytecode [0x80#8, 0xFF#8, 0xFF#8])
        ((runWrites (withBytecode [0x80#8, 0xFF#8, 0xFF#8])
          [.bits .u3 5#3, .bits .u5 0#5, .u16 0x1234#16]).getD [])).bytecode 7 =
      ((encode [.bits .u3 5#3, .bits .u5 0#5, .u16 0x1234#16]).getD 7 false ||
        (orMask [.bits .u3 5#3, .bits .u5 0#5, .u16 0x1234#16]).getD 7 false &&
          bitAt [0x80#8, 0xFF#8, 0xFF#8] 7) :=
  runWrites_overlay (c := withBytecode [0x80#8, 0xFF#8, 0xFF#8]) (by decide) (by decide) (by decide) (by simp) 7
    (by decide)

end AluVm
