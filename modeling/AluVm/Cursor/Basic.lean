import AluVm.Reg.Number

/-!
# The bytecode cursor

`Cursor<T>` of `encoding/cursor.rs`: a byte string, a `u16` byte offset, a `u3` bit offset and the end-of-data flag.
A call of a method on `&mut Cursor` returns a `Result` and leaves the cursor changed even when the result is an error,
or panics; `Call α` is what it does, `none` for a panic.

Bytes are `BitVec 8` (Rust's `u8`: `<<` drops the bits shifted out), offsets are `Fin 65536` (`u16`) and `Fin 8`
(`u3`). The slice operations of Rust that panic out of range (`b[i]`, `b[i] = v`, `&b[s..e]`,
`b[s..e].copy_from_slice(src)`) return `Option`.
-/

namespace AluVm

/-- Results are compared by constructor and payload, so that calls can be evaluated by `decide`. -/
instance exceptDecidableEq {ε α : Type} [DecidableEq ε] [DecidableEq α] : DecidableEq (Except ε α)
  | .error a, .error b => decidable_of_iff (a = b) (by simp)
  | .ok a, .ok b => decidable_of_iff (a = b) (by simp)
  | .error _, .ok _ => isFalse (by simp)
  | .ok _, .error _ => isFalse (by simp)

/-- `CursorError`. -/
inductive CursorError where
  /-- Attempt to read or write after end of data. -/
  | eof
  /-- Attempt to read or write at a position outside of data boundaries. -/
  | outOfBoundaries (pos : Nat)
  deriving DecidableEq, Repr

/-- `Cursor<T>`: the byte string `bytecode` and the position in it. -/
structure Cursor where
  bytecode : List (BitVec 8)
  bytePos : Fin 65536
  bitPos : Fin 8
  eof : Bool
  deriving DecidableEq, Repr

/-- What a call on `&mut Cursor` does: `none` is a panic, otherwise the result and the cursor it leaves. -/
abbrev Call (α : Type) := Option (Except CursorError α × Cursor)

/-- Rust's `result.map(|_| value)` on what a call returns. -/
def putValue {α : Type} (value : α) : Except CursorError Unit × Cursor → Except CursorError α × Cursor
  | (r, c) => (r.map fun _ => value, c)

/-- The bit-field types `u1` … `u7` of `amplify_num` that `read_u1` … `read_u7` return. -/
inductive Width where
  | u1 | u2 | u3 | u4 | u5 | u6 | u7
  deriving DecidableEq, Repr

/-- The bit width of a bit-field type. -/
def Width.bits : Width → Nat
  | .u1 => 1 | .u2 => 2 | .u3 => 3 | .u4 => 4 | .u5 => 5 | .u6 => 6 | .u7 => 7

theorem Width.bits_pos (w : Width) : 0 < w.bits := by cases w <;> decide

theorem Width.bits_lt (w : Width) : w.bits < 8 := by cases w <;> decide

/-- `u3::with(w)`, the bit count of a bit-field type. -/
def Width.bitCount (w : Width) : Fin 8 := ⟨w.bits, w.bits_lt⟩

/-- `[u8; 32]`. -/
structure Bytes32 where
  bytes : List (BitVec 8)
  length_eq : bytes.length = 32
  deriving DecidableEq

/-! ## Slices -/

/-- `slice[i] = v`. -/
def setByte (bs : List (BitVec 8)) (i : Nat) (v : BitVec 8) : Option (List (BitVec 8)) :=
  if i < bs.length then some (bs.set i v) else none

/-- `slice[i] |= v`. -/
def orByte (bs : List (BitVec 8)) (i : Nat) (v : BitVec 8) : Option (List (BitVec 8)) :=
  bs[i]?.map fun b => bs.set i (b ||| v)

/-- `&slice[start..stop]`. -/
def range (bs : List (BitVec 8)) (start stop : Nat) : Option (List (BitVec 8)) :=
  if start ≤ stop ∧ stop ≤ bs.length then some ((bs.drop start).take (stop - start)) else none

/-- `slice[start..stop].copy_from_slice(src)`: panics out of range or when the lengths differ. -/
def copyFromSlice (bs : List (BitVec 8)) (start stop : Nat) (src : List (BitVec 8)) : Option (List (BitVec 8)) :=
  if start ≤ stop ∧ stop ≤ bs.length ∧ src.length = stop - start then some (bs.take start ++ src ++ bs.drop stop)
  else none

/-- `a + b` on `u16` (`2u16 + len as u16` in `read_slice` and `write_slice`) as the build with overflow checks runs it,
the debug build: an overflow panics. Without the checks it wraps, and a 65534-byte slice is written with `Ok` after
the cursor moved only past its two-byte prefix; the theorems about runs that return `Ok` do not reach that case. -/
def u16Add (a b : Nat) : Option (Fin 65536) :=
  if h : a + b < 65536 then some ⟨a + b, h⟩ else none

namespace Cursor

/-- `Cursor::with`. -/
def withBytecode (bytecode : List (BitVec 8)) : Cursor := ⟨bytecode, 0, 0, false⟩

/-- `Cursor::is_eof`. -/
def isEof (c : Cursor) : Bool := c.eof

/-- `Cursor::pos`. -/
def pos (c : Cursor) : Fin 65536 := c.bytePos

/-- `Cursor::seek`. -/
def seek (c : Cursor) (bytePos : Fin 65536) : Cursor := { c with bytePos }

/-- The loop of `extract` that builds its mask: `cnt` rounds of `mask <<= 1; mask |= 0x01`. -/
def maskLoop : Nat → BitVec 8 → BitVec 8
  | 0, mask => mask
  | cnt + 1, mask => maskLoop cnt ((mask <<< 1) ||| 1#8)

/-- `Cursor::_inc_bytes_inner`. -/
def incBytesInner (c : Cursor) (byteCount : Fin 65536) : Except CursorError Unit × Cursor :=
  if byteCount.val = 1 ∧ c.bytePos.val = 65535 then (.ok (), { c with eof := true })
  else if h : c.bytePos.val + byteCount.val < 65536 then (.ok (), { c with bytePos := ⟨_, h⟩ })
  else (.error (.outOfBoundaries (c.bytePos.val + byteCount.val)), c)

/-- The carry of `inc_bits` into the byte offset fits in `u16`. -/
theorem carry_lt (p n : Fin 8) : (p.val + n.val) / 8 < 65536 := by omega

/-- `Cursor::inc_bits`. -/
def incBits (c : Cursor) (bitCount : Fin 8) : Except CursorError Unit × Cursor :=
  if c.eof then (.error .eof, c)
  else
    let pos := c.bitPos.val + bitCount.val
    incBytesInner { c with bitPos := ⟨pos % 8, Nat.mod_lt _ (by decide)⟩ } ⟨pos / 8, carry_lt c.bitPos bitCount⟩

/-- `Cursor::inc_bytes`; the `assert_eq!` on the bit offset panics. -/
def incBytes (c : Cursor) (byteCount : Fin 65536) : Call Unit :=
  if c.bitPos.val ≠ 0 then none
  else if c.eof then some (.error .eof, c)
  else some (incBytesInner c byteCount)

/-- `Cursor::extract`: the `bitCount` bits from the bit offset on, within the current byte. -/
def extract (c : Cursor) (bitCount : Fin 8) : Call (BitVec 8) :=
  if c.eof then some (.error .eof, c)
  else
    c.bytecode[c.bytePos.val]?.map fun byte =>
      let mask := maskLoop bitCount.val 0#8 <<< c.bitPos.val
      let val := (byte &&& mask) >>> c.bitPos.val
      putValue val (incBits c bitCount)

end Cursor

end AluVm
