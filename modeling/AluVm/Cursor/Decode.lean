import AluVm.Cursor.Encoding
import AluVm.Cursor.Safety

/-!
# The reader decodes the spec's encoding

The reader is complete for the spec's bit layout (`Field.encode`) on every byte string, not only on what the writer
produced. Take fields, each placed where its read looks for it (`Field.Placed`), and a byte string that holds the
encoding of each at the bits the cursor reaches it at (`Holds`). Then, from a cursor off the end of data, the reads of
those fields all return `Ok` with the fields, the reader passes the sum of their sizes, and it stays off the end of
data (`runReads_of_encode`). The writer's side is `runWrites_encode`.

`Holds` puts each field `size` bits after the one before, as the cursor does: after a slice the next field starts two
bytes after the slice's encoding ends, and the reader never looks at those two bytes (`slice_gap_unread`). A field is
placed when a byte-aligned field is at a byte boundary, a bit field inside one byte, and a register value in the form
`read_value` returns it, unsigned and `reg.bits() / 8` bytes long. The fields must also end before bit `8 * 65536`:
a field of two or more bytes ending at the last byte of the address space fails with `Err(OutOfBoundaries(65536))`,
even where the byte string holds it.

The proof goes field by field. A bit-field read masks bits of one byte (`extract_of_bits`), a byte-aligned read takes
the bytes whose bits the encoding gives (`range_of_bits`), and `read_slice` reads its length prefix as a `u16`
(`readLe16_of_bits`) and then the bytes after it.
-/

namespace AluVm

open Cursor

/-! ## Where the reads look for a field -/

namespace Field

/-- The field's read finds it at absolute bit `k` as the spec lays it out: a byte-aligned field at a byte boundary, a
bit field inside one byte, a register value at a byte boundary, unsigned and `reg.bits() / 8` bytes long. -/
def Placed : Field → Nat → Prop
  | .bool _, _ => True
  | .bits w _, k => k % 8 + w.bits ≤ 8
  | .u8 _, k | .u16 _, k | .i16 _, k | .bytes32 _, k | .slice _, k => k % 8 = 0
  | .value reg n, k => k % 8 = 0 ∧ n.signed = false ∧ n.len = reg.bits.val / 8

instance (f : Field) (k : Nat) : Decidable (f.Placed k) :=
  match f with
  | .bool _ => inferInstanceAs (Decidable True)
  | .bits _ _ => inferInstanceAs (Decidable (_ ≤ _))
  | .u8 _ | .u16 _ | .i16 _ | .bytes32 _ | .slice _ => inferInstanceAs (Decidable (_ = _))
  | .value _ _ => inferInstanceAs (Decidable (_ ∧ _ ∧ _))

end Field

/-- Every field of a list is placed, the first at bit `k` and each `size` bits after the one before. -/
def PlacedRun : Nat → List Field → Prop
  | _, [] => True
  | k, f :: fs => f.Placed k ∧ PlacedRun (k + f.size) fs

instance decPlacedRun : (k : Nat) → (fs : List Field) → Decidable (PlacedRun k fs)
  | _, [] => isTrue trivial
  | k, f :: fs =>
    have := decPlacedRun (k + f.size) fs
    inferInstanceAs (Decidable (f.Placed k ∧ PlacedRun (k + f.size) fs))

/-- The byte string holds the encoding of each field, the first at bit `k` and each `size` bits after the one before:
the bits of its encoding are there, inside the byte string. -/
def Holds (bs : List (BitVec 8)) : Nat → List Field → Prop
  | _, [] => True
  | k, f :: fs => k + f.encode.length ≤ 8 * bs.length ∧
      (∀ i < f.encode.length, bitAt bs (k + i) = f.encode.getD i false) ∧ Holds bs (k + f.size) fs

instance decHolds (bs : List (BitVec 8)) : (k : Nat) → (fs : List Field) → Decidable (Holds bs k fs)
  | _, [] => isTrue trivial
  | k, f :: fs =>
    have := decHolds bs (k + f.size) fs
    inferInstanceAs (Decidable (_ ∧ (∀ i < f.encode.length, bitAt bs (k + i) = f.encode.getD i false) ∧ _))

/-! ## Bytes from their bits -/

/-- A 16-bit word's bits are those of its little-endian bytes. -/
theorem bytesBits_toLeBytes (v : BitVec 16) :
    bytesBits (toLeBytes v) = List.ofFn fun i : Fin 16 => v.getLsbD i := by
  refine List.ext_getElem (by rw [length_bytesBits, List.length_ofFn]; rfl) fun i h₁ h₂ => ?_
  rw [← List.getD_eq_getElem _ false h₁, getD_bytesBits, List.getElem_ofFn]
  have hlo : byteAt (toLeBytes v) 0 = v.extractLsb' 0 8 := rfl
  have hhi : byteAt (toLeBytes v) 1 = v.extractLsb' 8 8 := rfl
  simp only [List.length_ofFn] at h₂
  by_cases h8 : i < 8
  · rw [bitAt, Nat.div_eq_of_lt h8, Nat.mod_eq_of_lt h8, hlo, BitVec.getLsbD_extractLsb']
    simp [h8]
  · rw [bitAt, show i / 8 = 1 by omega, hhi, BitVec.getLsbD_extractLsb', show 8 + i % 8 = i by omega]
    simp [Nat.mod_lt]

/-- A register value in the form `read_value` returns is encoded as its bytes. -/
theorem Field.encode_value {reg : RegisterSet} {n : Number} (hn : n.len = reg.bits.val / 8) :
    (Field.value reg n).encode = bytesBits n.bytes := by
  rw [encode, Number.bytes_reshape_of_len _ _ (by simp [RegisterSet.layout, Layout.usingSign, hn])]

/-- Bytes from byte `p` on whose bits are those of `s` are `s`. -/
theorem range_of_bits {bs s : List (BitVec 8)} {p : Nat} (hl : p + s.length ≤ bs.length)
    (h : ∀ i < 8 * s.length, bitAt bs (8 * p + i) = bitAt s i) : range bs p (p + s.length) = some s :=
  range_of_byteAt hl fun j hj => by
    ext t
    have := h (8 * j + t) (by omega)
    rwa [show 8 * p + (8 * j + t) = 8 * (p + j) + t by omega, bitAt_eq_getLsbD _ _ t.isLt,
      bitAt_eq_getLsbD _ _ t.isLt] at this

namespace Cursor

theorem consumed_move {c : Cursor} (h0 : c.bitPos.val = 0) (he : c.eof = false) {k : Nat}
    (hk : c.bytePos.val + k < 65536) :
    ({ c with bytePos := ⟨c.bytePos.val + k, hk⟩ } : Cursor).consumed = c.consumed + 8 * k := by
  simp only [consumed, bitOffset, he, h0]
  omega

/-- `inc_bytes` at a byte boundary off the end of data, within the address space, moves the byte offset. -/
theorem incBytes_move {c : Cursor} (h0 : c.bitPos.val = 0) (he : c.eof = false) {k : Fin 65536}
    (hk : c.bytePos.val + k.val < 65536) : incBytes c k = some (.ok (), { c with bytePos := ⟨_, hk⟩ }) := by
  rw [incBytes_of_aligned h0 he, incBytesInner_move hk]

/-- An `inc_bits` that ends below bit `8 * 65536` leaves the flag clear. -/
theorem incBits_eof {c : Cursor} (he : c.eof = false) (n : Fin 8) (h : c.consumed + n.val < 8 * 65536) :
    (incBits c n).2.eof = false := by
  have hc : c.consumed = 8 * c.bytePos.val + c.bitPos.val := consumed_of_not_eof he
  rw [incBits_of_not_eof he]
  rcases incBytesInner_cases { c with bitPos := ⟨(c.bitPos.val + n.val) % 8, Nat.mod_lt _ (by decide)⟩ }
    ⟨(c.bitPos.val + n.val) / 8, carry_lt c.bitPos n⟩ with ⟨h1, h2, -⟩ | ⟨_, -, h'⟩ | ⟨-, -, h'⟩
  · simp only at h1 h2
    omega
  all_goals rw [h']; exact he

/-- `extract` of `n` bits inside one byte whose bits are those of `data`, with `data` zero from bit `n` on, returns
`data`. -/
theorem extract_of_bits {c : Cursor} {n : Fin 8} {data : BitVec 8} (he : c.eof = false)
    (hp : c.bytePos.val < c.bytecode.length) (hn : c.bitPos.val + n.val ≤ 8)
    (hd : ∀ j, n.val ≤ j → data.getLsbD j = false)
    (hbits : ∀ i < n.val, bitAt c.bytecode (c.consumed + i) = data.getLsbD i) :
    extract c n = some (.ok data, (incBits c n).2) := by
  have hc : c.consumed = 8 * c.bytePos.val + c.bitPos.val := consumed_of_not_eof he
  have hval : (c.bytecode[c.bytePos.val] &&& (maskLoop n.val 0#8 <<< c.bitPos.val)) >>> c.bitPos.val = data := by
    ext i
    rw [getLsbD_extracted]
    by_cases hi : i.val < n.val
    · rw [← hbits i hi, hc, Nat.add_assoc, bitAt_eq_getLsbD _ _ (by omega), byteAt_eq_getElem hp]
      simp [hi, show c.bitPos.val + i.val < 8 by omega]
    · simp [hi, hd i (by omega)]
  have hinc : incBits c n = (.ok (), (incBits c n).2) := Prod.ext (incBits_consumed he n).1 rfl
  rw [extract, if_neg (by simp [he]), List.getElem?_eq_getElem hp, Option.map_some']
  dsimp only
  rw [hval, hinc]
  rfl

theorem readBool_of_bits {c : Cursor} {b : Bool} (he : c.eof = false) (hp : c.bytePos.val < c.bytecode.length)
    (hb : bitAt c.bytecode c.consumed = b) : readBool c = some (.ok b, (incBits c 1).2) := by
  have hx : extract c 1 = some (.ok (if b then 1#8 else 0#8), (incBits c 1).2) :=
    extract_of_bits he hp (by have := c.bitPos.isLt; simp; omega)
      (fun j hj => by cases b <;> simp [show j ≠ 0 by simp at hj; omega])
      (fun i hi => by
        obtain rfl : i = 0 := by simpa using hi
        rw [Nat.add_zero, hb]
        cases b <;> rfl)
  rw [readBool, if_neg (by simp [he]), hx, Option.map_some']
  cases b <;> rfl

theorem readUN_of_bits {c : Cursor} {w : Width} {v : BitVec w.bits} (he : c.eof = false)
    (hp : c.bytePos.val < c.bytecode.length) (hn : c.bitPos.val + w.bits ≤ 8)
    (hb : ∀ i < w.bits, bitAt c.bytecode (c.consumed + i) = v.getLsbD i) :
    readUN w c = some (.ok v, (incBits c w.bitCount).2) := by
  have hx : extract c w.bitCount = some (.ok (v.setWidth 8), (incBits c w.bitCount).2) :=
    extract_of_bits he hp hn (fun j hj => by simp [BitVec.getLsbD_ge v j hj])
      (fun i hi => by rw [hb i hi]; simp [show i < 8 by omega])
  simp only [readUN, hx, Option.some_bind, tryInto_setWidth, Option.map_some']

theorem readU8_of_bits {c : Cursor} {v : BitVec 8} (h0 : c.bitPos.val = 0) (he : c.eof = false)
    (hl : c.bytePos.val < c.bytecode.length) (hk : c.bytePos.val + (1 : Fin 65536).val < 65536)
    (hb : ∀ i < 8, bitAt c.bytecode (8 * c.bytePos.val + i) = v.getLsbD i) :
    readU8 c = some (.ok v, { c with bytePos := ⟨_, hk⟩ }) := by
  have hv : c.bytecode[c.bytePos.val] = v := by
    ext t
    rw [← byteAt_eq_getElem hl, ← bitAt_eq_getLsbD _ _ t.isLt, hb t t.isLt]
  rw [readU8, if_neg (by simp [he])]
  simp only [List.getElem?_eq_getElem hl, hv, Option.some_bind, incBytes_move h0 he hk, Option.map_some',
    putValue_ok]

/-- `read_u16` at a byte boundary off the end of data, over two bytes whose bits are those of `w`, within the address
space: it returns `w` and moves two bytes on. -/
theorem readLe16_of_bits {c : Cursor} {w : BitVec 16} (h0 : c.bitPos.val = 0) (he : c.eof = false)
    (hl : c.bytePos.val + 2 ≤ c.bytecode.length) (hk : c.bytePos.val + (2 : Fin 65536).val < 65536)
    (hb : ∀ i < 16, bitAt c.bytecode (8 * c.bytePos.val + i) = w.getLsbD i) :
    readLe16 c = some (.ok w, { c with bytePos := ⟨_, hk⟩ }) := by
  have hr : range c.bytecode c.bytePos.val (c.bytePos.val + (toLeBytes w).length) = some (toLeBytes w) :=
    range_of_bits hl fun i hi => by
      have hi : i < 16 := by simpa [toLeBytes] using hi
      rw [← getD_bytesBits (toLeBytes w), bytesBits_toLeBytes, getD_ofFn _ hi]
      exact hb i hi
  rw [readLe16, if_neg (by simp [he])]
  simp only [show (toLeBytes w).length = 2 from rfl] at hr
  simp only [hr, Option.some_bind, incBytes_move h0 he hk, Option.map_some', putValue_ok, fromLeBytes_toLeBytes]

theorem readBytes32_of_bits {c : Cursor} {v : Bytes32} (h0 : c.bitPos.val = 0) (he : c.eof = false)
    (hl : c.bytePos.val + 32 ≤ c.bytecode.length) (hk : c.bytePos.val + (32 : Fin 65536).val < 65536)
    (hb : ∀ i < 256, bitAt c.bytecode (8 * c.bytePos.val + i) = bitAt v.bytes i) :
    readBytes32 c = some (.ok v, { c with bytePos := ⟨_, hk⟩ }) := by
  have hr : range c.bytecode c.bytePos.val (c.bytePos.val + v.bytes.length) = some v.bytes :=
    range_of_bits (by rw [v.length_eq]; exact hl) fun i hi => hb i (by rw [v.length_eq] at hi; exact hi)
  obtain ⟨-, -, hx⟩ := range_eq_some hr
  rw [readBytes32, if_neg (by simp [he]), dif_pos hl]
  simp only [incBytes_move h0 he hk, Option.map_some', putValue_ok]
  obtain ⟨bytes, h32⟩ := v
  simp only [h32, Nat.add_sub_cancel_left] at hx
  simp only [← hx]

theorem readValue_of_bits {c : Cursor} {reg : RegisterSet} {s : List (BitVec 8)} (h0 : c.bitPos.val = 0)
    (he : c.eof = false) (hs : s.length = reg.bits.val / 8) (hl : c.bytePos.val + s.length ≤ c.bytecode.length)
    (hk : c.bytePos.val + reg.bits.val / 8 < 65536)
    (hb : ∀ i < 8 * s.length, bitAt c.bytecode (8 * c.bytePos.val + i) = bitAt s i) :
    readValue reg c = some (.ok (Number.fromSlice s), { c with bytePos := ⟨_, hk⟩ }) := by
  have hr := range_of_bits hl hb
  rw [hs] at hr
  rw [readValue, if_neg (by simp [he])]
  simp only [hr, Option.some_bind, incBytes_move (k := ⟨reg.bits.val / 8, by omega⟩) h0 he hk, Option.map_some',
    putValue_ok]

/-- `read_slice` at a byte boundary off the end of data, over a length prefix `len` and `len` bytes after it, with
`4 + len` bytes left in the address space: it returns the bytes and moves `4 + len` bytes on. -/
theorem readSlice_of_bits {c : Cursor} {v : List (BitVec 8)} (h0 : c.bitPos.val = 0) (he : c.eof = false)
    (hl : c.bytePos.val + 2 + v.length ≤ c.bytecode.length) (hk : c.bytePos.val + 2 + (2 + v.length) < 65536)
    (hlen : ∀ i < 16, bitAt c.bytecode (8 * c.bytePos.val + i) = (BitVec.ofNat 16 v.length).getLsbD i)
    (hb : ∀ i < 8 * v.length, bitAt c.bytecode (8 * (c.bytePos.val + 2) + i) = bitAt v i) :
    readSlice c = some (.ok v, { c with bytePos := ⟨_, hk⟩ }) := by
  have hk₁ : c.bytePos.val + (2 : Fin 65536).val < 65536 := by rw [show ((2 : Fin 65536) : Nat) = 2 from rfl]; omega
  have h₁ := readLe16_of_bits h0 he (by omega) hk₁ hlen
  have hw : (BitVec.ofNat 16 v.length).toNat = v.length := by simp; omega
  have hu : u16Add 2 v.length = some ⟨2 + v.length, by omega⟩ := by simp [u16Add]; omega
  have h₂ := incBytes_move (c := { c with bytePos := ⟨_, hk₁⟩ }) (k := ⟨2 + v.length, by omega⟩) h0 he hk
  have hr : range c.bytecode (c.bytePos.val + 2) (c.bytePos.val + 2 + v.length) = some v := range_of_bits hl hb
  rw [readSlice, if_neg (by simp [he])]
  simp only [readU16, h₁, Option.some_bind, hw, hu, h₂]
  simp only [show ((2 : Fin 65536) : Nat) = 2 from rfl, hr, Option.map_some']

end Cursor

/-! ## One field -/

/-- A byte-aligned field: the bit offset is zero and the bits passed are those of the whole bytes before. -/
theorem aligned_of_placed {c : Cursor} (he : c.eof = false) (h : c.consumed % 8 = 0) :
    c.bitPos.val = 0 ∧ c.consumed = 8 * c.bytePos.val := by
  have hc : c.consumed = 8 * c.bytePos.val + c.bitPos.val := consumed_of_not_eof he
  omega

/-- The read of a placed field, ending below bit `8 * 65536`, whose encoding the byte string holds from `consumed` on,
returns it and passes its size, off the end of data. -/
theorem Field.call_of_encode {f : Field} {c : Cursor} (he : c.eof = false) (hp : f.Placed c.consumed)
    (hend : c.consumed + f.size < 8 * 65536) (hl : c.consumed + f.encode.length ≤ 8 * c.bytecode.length)
    (hb : ∀ i < f.encode.length, bitAt c.bytecode (c.consumed + i) = f.encode.getD i false) :
    ∃ c', f.readOp.call c = some (.ok f, c') ∧ c'.bytecode = c.bytecode ∧ c'.eof = false ∧
      c'.consumed = c.consumed + f.size := by
  have hc : c.consumed = 8 * c.bytePos.val + c.bitPos.val := consumed_of_not_eof he
  cases f <;> simp only [size] at hend
  case bool b =>
    simp only [encode, List.length_singleton] at hl hb
    refine ⟨_, ?_, incBits_bytecode c 1, incBits_eof he 1 hend, (incBits_consumed he 1).2⟩
    simp only [readOp, ReadOp.call, mapResult, readBool_of_bits he (by omega) (hb 0 Nat.one_pos), Option.map_some']
    rfl
  case bits w v =>
    simp only [encode, List.length_ofFn] at hl hb
    have hr := readUN_of_bits (v := v) he (by have := w.bits_pos; omega) (by simp only [Placed] at hp; omega)
      fun i hi => by rw [hb i hi, getD_ofFn _ hi]
    refine ⟨_, ?_, incBits_bytecode c w.bitCount, incBits_eof he w.bitCount hend, (incBits_consumed he _).2⟩
    simp only [readOp, ReadOp.call, mapResult, hr, Option.map_some']
    rfl
  case u8 v =>
    obtain ⟨h0, hc0⟩ := aligned_of_placed he hp
    simp only [encode, List.length_ofFn] at hl hb
    have hk : c.bytePos.val + (1 : Fin 65536).val < 65536 := by rw [Fin.val_one]; omega
    refine ⟨{ c with bytePos := ⟨_, hk⟩ }, ?_, rfl, he, consumed_move h0 he hk⟩
    simp only [readOp, ReadOp.call, mapResult, Option.map_some',
      readU8_of_bits h0 he (by omega) hk fun i hi => by rw [← hc0, hb i hi, getD_ofFn _ hi]]
    rfl
  case u16 v | i16 v =>
    obtain ⟨h0, hc0⟩ := aligned_of_placed he hp
    simp only [encode, List.length_ofFn] at hl hb
    have hk : c.bytePos.val + (2 : Fin 65536).val < 65536 := by rw [show ((2 : Fin 65536) : Nat) = 2 from rfl]; omega
    refine ⟨{ c with bytePos := ⟨_, hk⟩ }, ?_, rfl, he, consumed_move h0 he hk⟩
    simp only [readOp, ReadOp.call, mapResult, readU16, readI16, Option.map_some',
      readLe16_of_bits h0 he (by omega) hk fun i hi => by rw [← hc0, hb i hi, getD_ofFn _ hi]]
    rfl
  case bytes32 v =>
    obtain ⟨h0, hc0⟩ := aligned_of_placed he hp
    simp only [encode, length_bytesBits, v.length_eq] at hl hb
    have hk : c.bytePos.val + (32 : Fin 65536).val < 65536 := by rw [show ((32 : Fin 65536) : Nat) = 32 from rfl]; omega
    refine ⟨{ c with bytePos := ⟨_, hk⟩ }, ?_, rfl, he, consumed_move h0 he hk⟩
    simp only [readOp, ReadOp.call, mapResult, Option.map_some',
      readBytes32_of_bits h0 he (by omega) hk fun i hi => by rw [← hc0, hb i hi, getD_bytesBits]]
    rfl
  case slice v =>
    obtain ⟨h0, hc0⟩ := aligned_of_placed he hp
    simp only [encode, List.length_append, List.length_ofFn, length_bytesBits] at hl hb
    have hk : c.bytePos.val + 2 + (2 + v.length) < 65536 := by omega
    refine ⟨{ c with bytePos := ⟨_, hk⟩ }, ?_, rfl, he, by simp only [consumed, bitOffset, he, h0, size]; omega⟩
    simp only [readOp, ReadOp.call, mapResult, Option.map_some', readSlice_of_bits h0 he (by omega) hk
      (fun i hi => by
        rw [← hc0, hb i (by omega), List.getD_append _ _ _ _ (by rw [List.length_ofFn]; exact hi), getD_ofFn _ hi])
      (fun i hi => by
        rw [show 8 * (c.bytePos.val + 2) + i = c.consumed + (16 + i) by omega, hb _ (by omega),
          List.getD_append_right _ _ _ _ (by rw [List.length_ofFn]; omega), List.length_ofFn,
          Nat.add_sub_cancel_left, getD_bytesBits])]
    rfl
  case value reg n =>
    obtain ⟨hp, hs, hn⟩ := hp
    obtain ⟨h0, hc0⟩ := aligned_of_placed he hp
    have hlen : n.bytes.length = reg.bits.val / 8 := hn
    simp only [encode_value hn, length_bytesBits] at hl hb
    have hk : c.bytePos.val + reg.bits.val / 8 < 65536 := by omega
    refine ⟨{ c with bytePos := ⟨_, hk⟩ }, ?_, rfl, he, consumed_move h0 he hk⟩
    simp only [readOp, ReadOp.call, mapResult, Option.map_some',
      readValue_of_bits h0 he hlen (by omega) hk fun i hi => by rw [← hc0, hb i hi, getD_bytesBits]]
    obtain ⟨bytes, signed⟩ := n
    cases hs
    rfl

/-! ## Runs -/

/-- Reads of placed fields, ending below bit `8 * 65536`, from a cursor off the end of data over a byte string that
holds the encoding of each field where the cursor reaches it: every read returns `Ok` with its field, and the reader
passes the sum of their sizes and stays off the end of data. -/
theorem runReads_of_encode : ∀ {c : Cursor} {fs : List Field}, c.eof = false → PlacedRun c.consumed fs →
    c.consumed + (fs.map Field.size).sum < 8 * 65536 → Holds c.bytecode c.consumed fs →
    ∃ tr, runReads c (fs.map Field.readOp) = some tr ∧ tr.map Prod.fst = fs.map .ok ∧
      (lastCursor c tr).eof = false ∧ (lastCursor c tr).consumed = c.consumed + (fs.map Field.size).sum
  | c, [], he, _, _, _ => ⟨[], rfl, rfl, he, by simp⟩
  | c, f :: fs, he, ⟨hp, hps⟩, hend, ⟨hl, hb, hhs⟩ => by
    simp only [List.map_cons, List.sum_cons] at hend ⊢
    obtain ⟨c', h₁, hbc, he', hc⟩ := Field.call_of_encode he hp (by omega) hl hb
    obtain ⟨tr, h₂, hv, he'', hc'⟩ :=
      runReads_of_encode he' (by rw [hc]; exact hps) (by omega) (by rw [hbc, hc]; exact hhs)
    exact ⟨(.ok f, c') :: tr, by simp [runReads, h₁, h₂], by simp [hv], by simpa using he'', by simp [hc', hc]; omega⟩

theorem runReads_of_encode_slice :
    ∃ tr, runReads (withBytecode [0x3D#8, 1#8, 0#8, 7#8, 0xEE#8, 0xEE#8, 9#8])
        ([.bits .u3 5#3, .bool true, .bits .u4 3#4, .slice [7#8], .u8 9#8].map Field.readOp) = some tr ∧
      tr.map Prod.fst = [.bits .u3 5#3, .bool true, .bits .u4 3#4, .slice [7#8], .u8 9#8].map .ok ∧
      (lastCursor (withBytecode [0x3D#8, 1#8, 0#8, 7#8, 0xEE#8, 0xEE#8, 9#8]) tr).eof = false ∧
      (lastCursor (withBytecode [0x3D#8, 1#8, 0#8, 7#8, 0xEE#8, 0xEE#8, 9#8]) tr).consumed =
        (withBytecode [0x3D#8, 1#8, 0#8, 7#8, 0xEE#8, 0xEE#8, 9#8]).consumed +
          ([.bits .u3 5#3, .bool true, .bits .u4 3#4, .slice [7#8], .u8 9#8].map Field.size).sum :=
  runReads_of_encode rfl (by decide) (by decide) (by decide)

end AluVm
