import AluVm.Cursor.Basic

/-!
# `impl Read for Cursor<&[u8]>`

Every method but `peek_u8` first returns `Err(Eof)` when the end-of-data flag is set; the byte-aligned ones index the
byte string before `inc_bytes` checks anything, and `read_slice` advances over the length prefix with `read_u16`
before it advances `2 + len` more bytes. `read_u16` and `read_i16` share one body (`readLe16`): an `i16` is carried as
its 16 two's-complement bits.
-/

namespace AluVm.Cursor

/-- `Read::is_end`. -/
def isEnd (c : Cursor) : Bool := decide (c.bytecode.length ≤ c.bytePos.val)

/-- `Read::peek_u8`, on `&self`. -/
def peekU8 (c : Cursor) : Option (Except CursorError (BitVec 8)) :=
  if c.eof then some (.error .eof) else c.bytecode[c.bytePos.val]?.map .ok

/-- `Read::read_bool`. -/
def readBool (c : Cursor) : Call Bool :=
  if c.eof then some (.error .eof, c)
  else (extract c 1).map fun (r, c) => (r.map (· == 1#8), c)

/-- `try_into().expect("bit extractor failure")` from `u8` to a bit-field type. -/
def tryInto (w : Width) (b : BitVec 8) : Option (BitVec w.bits) :=
  if b.toNat < 2 ^ w.bits then some (BitVec.ofNat w.bits b.toNat) else none

/-- The body of `read_u1` … `read_u7`. -/
def readUN (w : Width) (c : Cursor) : Call (BitVec w.bits) :=
  (extract c w.bitCount).bind fun
    | (.error e, c) => some (.error e, c)
    | (.ok b, c) => (tryInto w b).map fun v => (.ok v, c)

/-- `Read::read_u1`. -/
def readU1 (c : Cursor) : Call (BitVec 1) := readUN .u1 c

/-- `Read::read_u2`. -/
def readU2 (c : Cursor) : Call (BitVec 2) := readUN .u2 c

/-- `Read::read_u3`. -/
def readU3 (c : Cursor) : Call (BitVec 3) := readUN .u3 c

/-- `Read::read_u4`. -/
def readU4 (c : Cursor) : Call (BitVec 4) := readUN .u4 c

/-- `Read::read_u5`. -/
def readU5 (c : Cursor) : Call (BitVec 5) := readUN .u5 c

/-- `Read::read_u6`. -/
def readU6 (c : Cursor) : Call (BitVec 6) := readUN .u6 c

/-- `Read::read_u7`. -/
def readU7 (c : Cursor) : Call (BitVec 7) := readUN .u7 c

/-- `Read::read_u8`. -/
def readU8 (c : Cursor) : Call (BitVec 8) :=
  if c.eof then some (.error .eof, c)
  else c.bytecode[c.bytePos.val]?.bind fun byte => (incBytes c 1).map (putValue byte)

/-- `u16::from_le_bytes` and `i16::from_le_bytes` of a two-byte buffer. -/
def fromLeBytes (buf : List (BitVec 8)) : BitVec 16 := buf.getD 1 0#8 ++ buf.getD 0 0#8

/-- The body of `read_u16` and `read_i16`. -/
def readLe16 (c : Cursor) : Call (BitVec 16) :=
  if c.eof then some (.error .eof, c)
  else
    let pos := c.bytePos.val
    (range c.bytecode pos (pos + 2)).bind fun buf => (incBytes c 2).map (putValue (fromLeBytes buf))

/-- `Read::read_u16`. -/
def readU16 (c : Cursor) : Call (BitVec 16) := readLe16 c

/-- `Read::read_i16`. -/
def readI16 (c : Cursor) : Call (BitVec 16) := readLe16 c

/-- `Read::read_bytes32`. -/
def readBytes32 (c : Cursor) : Call Bytes32 :=
  if c.eof then some (.error .eof, c)
  else
    let pos := c.bytePos.val
    if h : pos + 32 ≤ c.bytecode.length then
      (incBytes c 32).map (putValue ⟨(c.bytecode.drop pos).take 32, by simp; omega⟩)
    else none

/-- `Read::read_slice`: the `u16` length prefix, then `inc_bytes(2u16 + len as u16)`, then the `len` bytes after the
prefix. -/
def readSlice (c : Cursor) : Call (List (BitVec 8)) :=
  if c.eof then some (.error .eof, c)
  else
    (readU16 c).bind fun
      | (.error e, c) => some (.error e, c)
      | (.ok word, c) =>
        let len := word.toNat
        let pos := c.bytePos.val
        (u16Add 2 len).bind fun n =>
          (incBytes c n).bind fun
            | (.error e, c) => some (.error e, c)
            | (.ok (), c) => (range c.bytecode pos (pos + len)).map fun s => (.ok s, c)

/-- `Read::read_value`: `reg.bits() / 8` bytes. -/
def readValue (reg : RegisterSet) (c : Cursor) : Call Number :=
  if c.eof then some (.error .eof, c)
  else
    let len := reg.bits.val / 8
    let pos := c.bytePos.val
    (range c.bytecode pos (pos + len)).bind fun s =>
      (incBytes c ⟨len, by omega⟩).map (putValue (Number.fromSlice s))

end AluVm.Cursor
