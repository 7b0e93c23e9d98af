import Mathlib

/-!
# Register values: `Number` and `RegisterSet`

`crate::reg` is not part of this repository; `read_value` and `write_value` of the cursor use these from it:
`RegisterSet::bits`, `RegisterSet::layout`, `Number::len`, `Number::from_slice`, `Number::reshape` and the bytes
`value[..]`. They are modelled here from the spec: a number is a little-endian byte string with a sign flag, and
reshaping resizes it to a layout's byte width by truncation or sign extension (`len_reshape`).
-/

namespace AluVm

/-- Modelled from the spec: a number layout of `crate::reg`, its byte width and signedness. -/
structure Layout where
  bytes : Nat
  signed : Bool
  deriving DecidableEq, Repr

/-- Modelled from the spec: `Layout::using_sign`, the layout with the sign of `other`. -/
def Layout.usingSign (l other : Layout) : Layout := { l with signed := other.signed }

/-- Modelled from the spec: `Number` of `crate::reg`, little-endian bytes with a sign flag. -/
structure Number where
  bytes : List (BitVec 8)
  signed : Bool
  deriving DecidableEq, Repr

namespace Number

/-- Modelled from the spec: `Number::len`, the byte length. -/
def len (n : Number) : Nat := n.bytes.length

/-- Modelled from the spec: `Number::layout`. -/
def layout (n : Number) : Layout := ⟨n.len, n.signed⟩

/-- Modelled from the spec: `Number::from_slice`, an unsigned number with the given bytes. -/
def fromSlice (s : List (BitVec 8)) : Number := ⟨s, false⟩

/-- Modelled from the spec: `Number::reshape`, truncation to the layout's width or extension with `0xFF` (a signed
value with its top bit set) or `0x00` bytes. -/
def reshape (n : Number) (l : Layout) : Number :=
  let fill := if n.signed && (n.bytes.getLastD 0#8).getLsbD 7 then 0xFF#8 else 0#8
  ⟨(n.bytes ++ List.replicate (l.bytes - n.len) fill).take l.bytes, l.signed⟩

@[simp] theorem len_reshape (n : Number) (l : Layout) : (n.reshape l).len = l.bytes := by
  simp only [reshape, len, List.length_take, List.length_append, List.length_replicate]
  omega

/-- Reshaping to the number's own width keeps its bytes. -/
theorem bytes_reshape_of_len (n : Number) (l : Layout) (h : l.bytes = n.len) : (n.reshape l).bytes = n.bytes := by
  simp [reshape, h, len]

/-- Reshaping to a width no larger than the number's own cuts it: the fill byte is never used. -/
theorem bytes_reshape_of_le (n : Number) (l : Layout) (h : l.bytes ≤ n.len) :
    (n.reshape l).bytes = n.bytes.take l.bytes := by
  simp [reshape, Nat.sub_eq_zero_of_le h]

@[simp] theorem len_fromSlice (s : List (BitVec 8)) : (fromSlice s).len = s.length := rfl

end Number

/-- Modelled from the spec: a register class (`RegisterSet` of `crate::reg`) by its bit width `bits()`. -/
structure RegisterSet where
  bits : Fin 65536
  deriving DecidableEq, Repr

/-- Modelled from the spec: `RegisterSet::layout`, `bits / 8` bytes. -/
def RegisterSet.layout (r : RegisterSet) : Layout := ⟨r.bits.val / 8, false⟩

@[simp] theorem len_reshape_register (reg : RegisterSet) (v : Number) :
    (v.reshape (reg.layout.usingSign v.layout)).len = reg.bits.val / 8 := by
  simp [RegisterSet.layout, Layout.usingSign]

end AluVm
