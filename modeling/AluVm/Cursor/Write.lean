import AluVm.Cursor.Basic

/-!
# `impl Write for Cursor<&mut [u8]>`

Every method stores into the byte string first and only then moves the cursor, so the end-of-data flag, the alignment
assertion of `inc_bytes` and the position checks all come after the store. `write_bool` and `write_u1` … `write_u7`
share one body (`deposit`), as `write_u16` and `write_i16` do (`writeLe16`).
-/

namespace AluVm.Cursor

/-- The body of `write_bool` and `write_u1` … `write_u7`: `self.bytecode[byte_pos] |= data << bit_pos`, then
`inc_bits(bitCount)`. -/
def deposit (data : BitVec 8) (bitCount : Fin 8) (c : Cursor) : Call Unit :=
  (orByte c.bytecode c.bytePos.val (data <<< c.bitPos.val)).map fun bytecode => incBits { c with bytecode } bitCount

/-- `Write::write_bool`. -/
def writeBool (data : Bool) (c : Cursor) : Call Unit := deposit (if data then 1#8 else 0#8) 1 c

/-- The body of `write_u1` … `write_u7`: `data.into().as_u8()` deposited with the type's bit count. -/
def writeUN (w : Width) (data : BitVec w.bits) (c : Cursor) : Call Unit := deposit (data.setWidth 8) w.bitCount c

/-- `Write::write_u1`. -/
def writeU1 (data : BitVec 1) (c : Cursor) : Call Unit := writeUN .u1 data c

/-- `Write::write_u2`. -/
def writeU2 (data : BitVec 2) (c : Cursor) : Call Unit := writeUN .u2 data c

/-- `Write::write_u3`. -/
def writeU3 (data : BitVec 3) (c : Cursor) : Call Unit := writeUN .u3 data c

/-- `Write::write_u4`. -/
def writeU4 (data : BitVec 4) (c : Cursor) : Call Unit := writeUN .u4 data c

/-- `Write::write_u5`. -/
def writeU5 (data : BitVec 5) (c : Cursor) : Call Unit := writeUN .u5 data c

/-- `Write::write_u6`. -/
def writeU6 (data : BitVec 6) (c : Cursor) : Call Unit := writeUN .u6 data c

/-- `Write::write_u7`. -/
def writeU7 (data : BitVec 7) (c : Cursor) : Call Unit := writeUN .u7 data c

/-- `Write::write_u8`. -/
def writeU8 (data : BitVec 8) (c : Cursor) : Call Unit :=
  (setByte c.bytecode c.bytePos.val data).bind fun bytecode => incBytes { c with bytecode } 1

/-- `u16::to_le_bytes` and `i16::to_le_bytes`. -/
def toLeBytes (data : BitVec 16) : List (BitVec 8) := [data.extractLsb' 0 8, data.extractLsb' 8 8]

/-- The body of `write_u16` and `write_i16`: `data[0]` at the byte offset, `data[1]` after it. -/
def writeLe16 (data : BitVec 16) (c : Cursor) : Call Unit :=
  let data := toLeBytes data
  (setByte c.bytecode c.bytePos.val (data.getD 0 0#8)).bind fun bs =>
    (setByte bs (c.bytePos.val + 1) (data.getD 1 0#8)).bind fun bytecode => incBytes { c with bytecode } 2

/-- `Write::write_u16`. -/
def writeU16 (data : BitVec 16) (c : Cursor) : Call Unit := writeLe16 data c

/-- `Write::write_i16`. -/
def writeI16 (data : BitVec 16) (c : Cursor) : Call Unit := writeLe16 data c

/-- `Write::write_bytes32`. -/
def writeBytes32 (data : Bytes32) (c : Cursor) : Call Unit :=
  let start := c.bytePos.val
  (copyFromSlice c.bytecode start (start + 32) data.bytes).bind fun bytecode => incBytes { c with bytecode } 32

/-- `Write::write_slice`: `Err(OutOfBoundaries(len))` for `len ≥ u16::MAX`, else the `u16` length prefix, the bytes
after it, and `inc_bytes(2u16 + len as u16)`. -/
def writeSlice (bytes : List (BitVec 8)) (c : Cursor) : Call Unit :=
  let len := bytes.length
  if len ≥ 65535 then some (.error (.outOfBoundaries len), c)
  else
    (writeU16 (BitVec.ofNat 16 len) c).bind fun
      | (.error e, c) => some (.error e, c)
      | (.ok (), c) =>
        let start := c.bytePos.val
        (copyFromSlice c.bytecode start (start + len) bytes).bind fun bytecode =>
          (u16Add 2 len).bind fun n => incBytes { c with bytecode } n

/-- `Write::write_value`: asserts `reg.bits() / 8 <= value.len()`, reshapes the value to the register's layout with
the value's sign, copies its bytes and advances `reg.bits() / 8` bytes. -/
def writeValue (reg : RegisterSet) (value : Number) (c : Cursor) : Call Unit :=
  let len := reg.bits.val / 8
  if len ≤ value.len then
    let value := value.reshape (reg.layout.usingSign value.layout)
    let start := c.bytePos.val
    (copyFromSlice c.bytecode start (start + value.len) value.bytes).bind fun bytecode =>
      incBytes { c with bytecode } ⟨len, by omega⟩
  else none

end AluVm.Cursor
