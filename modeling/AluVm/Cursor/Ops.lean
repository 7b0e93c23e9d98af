import AluVm.Cursor.Read
import AluVm.Cursor.Write

/-!
# Calls and runs

The methods of `Read` as one type `ReadOp`, the values they return and the methods of `Write` take as `Field`, and the
runs: `runReads` and `runWrites` give, call by call, what each returned and the cursor it left (`none` if a call
panics). A caller may go on calling after an error, so a run does not stop at one. `ReaderStep` and `WriterStep` are
single calls with `seek` added; the states reachable from `Cursor::with` are their reflexive transitive closures.
-/

namespace AluVm

/-- A value read from or written to the byte string. -/
inductive Field where
  | bool (b : Bool)
  | bits (w : Width) (v : BitVec w.bits)
  | u8 (v : BitVec 8)
  | u16 (v : BitVec 16)
  | i16 (v : BitVec 16)
  | bytes32 (v : Bytes32)
  | slice (v : List (BitVec 8))
  | value (reg : RegisterSet) (n : Number)
  deriving DecidableEq

/-- A method of `Read`. -/
inductive ReadOp where
  | peekU8
  | readBool
  | readU (w : Width)
  | readU8
  | readU16
  | readI16
  | readBytes32
  | readSlice
  | readValue (reg : RegisterSet)
  deriving DecidableEq, Repr

/-- A call's result mapped into another type. -/
def mapResult {α β : Type} (f : α → β) : Call α → Call β :=
  Option.map fun (r, c) => (r.map f, c)

/-- The call of a read method; `peek_u8` leaves the cursor as it is. -/
def ReadOp.call : ReadOp → Cursor → Call Field
  | .peekU8, c => c.peekU8.map fun r => (r.map .u8, c)
  | .readBool, c => mapResult .bool c.readBool
  | .readU w, c => mapResult (.bits w) (c.readUN w)
  | .readU8, c => mapResult .u8 c.readU8
  | .readU16, c => mapResult .u16 c.readU16
  | .readI16, c => mapResult .i16 c.readI16
  | .readBytes32, c => mapResult .bytes32 c.readBytes32
  | .readSlice, c => mapResult .slice c.readSlice
  | .readValue reg, c => mapResult (.value reg) (c.readValue reg)

namespace Field

/-- The write method for a field. -/
def write : Field → Cursor → Call Unit
  | .bool b => Cursor.writeBool b
  | .bits w v => Cursor.writeUN w v
  | .u8 v => Cursor.writeU8 v
  | .u16 v => Cursor.writeU16 v
  | .i16 v => Cursor.writeI16 v
  | .bytes32 v => Cursor.writeBytes32 v
  | .slice v => Cursor.writeSlice v
  | .value reg n => Cursor.writeValue reg n

/-- The read method that decodes a field of this kind. -/
def readOp : Field → ReadOp
  | .bool _ => .readBool
  | .bits w _ => .readU w
  | .u8 _ => .readU8
  | .u16 _ => .readU16
  | .i16 _ => .readI16
  | .bytes32 _ => .readBytes32
  | .slice _ => .readSlice
  | .value reg _ => .readValue reg

end Field

/-- The calls of a run of reads: what each returned and the cursor it left, or `none` if one panics. -/
def runReads : Cursor → List ReadOp → Option (List (Except CursorError Field × Cursor))
  | _, [] => some []
  | c, o :: os => (o.call c).bind fun (r, c') => (runReads c' os).map ((r, c') :: ·)

/-- The calls of a run of writes: what each returned and the cursor it left, or `none` if one panics. -/
def runWrites : Cursor → List Field → Option (List (Except CursorError Unit × Cursor))
  | _, [] => some []
  | c, f :: fs => (f.write c).bind fun (r, c') => (runWrites c' fs).map ((r, c') :: ·)

/-- A run of reads that returns is its first call and the run after it. -/
theorem runReads_cons_eq_some {c : Cursor} {o : ReadOp} {os : List ReadOp}
    {tr : List (Except CursorError Field × Cursor)} (h : runReads c (o :: os) = some tr) :
    ∃ r c' tr', o.call c = some (r, c') ∧ runReads c' os = some tr' ∧ tr = (r, c') :: tr' := by
  obtain ⟨⟨r, c'⟩, h₁, h₂⟩ := Option.bind_eq_some.1 h
  obtain ⟨tr', h₃, rfl⟩ := Option.map_eq_some'.1 h₂
  exact ⟨r, c', tr', h₁, h₃, rfl⟩

/-- A run of writes that returns is its first call and the run after it. -/
theorem runWrites_cons_eq_some {c : Cursor} {f : Field} {fs : List Field} {tr : List (Except CursorError Unit × Cursor)}
    (h : runWrites c (f :: fs) = some tr) :
    ∃ r c' tr', f.write c = some (r, c') ∧ runWrites c' fs = some tr' ∧ tr = (r, c') :: tr' := by
  obtain ⟨⟨r, c'⟩, h₁, h₂⟩ := Option.bind_eq_some.1 h
  obtain ⟨tr', h₃, rfl⟩ := Option.map_eq_some'.1 h₂
  exact ⟨r, c', tr', h₁, h₃, rfl⟩

/-- One call on a cursor over `&[u8]` that returns: a read method, or `seek`. -/
inductive ReaderStep : Cursor → Cursor → Prop
  | read (o : ReadOp) {c c' : Cursor} {r : Except CursorError Field} : o.call c = some (r, c') → ReaderStep c c'
  | seek (c : Cursor) (p : Fin 65536) : ReaderStep c (c.seek p)

/-- One call on a cursor over `&mut [u8]` that returns: a write method, or `seek`. -/
inductive WriterStep : Cursor → Cursor → Prop
  | write (f : Field) {c c' : Cursor} {r : Except CursorError Unit} : f.write c = some (r, c') → WriterStep c c'
  | seek (c : Cursor) (p : Fin 65536) : WriterStep c (c.seek p)

end AluVm
