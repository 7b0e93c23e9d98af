import AluVm.Cursor.ReadSpec

/-!
# Register values

`write_value` asserts `reg.bits() / 8 <= value.len()`, reshapes the value to the register's byte width with the value's
sign, copies it and advances by the register's width. Its message ("value for the register has larger bit length than
the register") names the opposite of its condition. Whenever it returns, the value was at least as wide as the
register and its first `reg.bits() / 8` bytes were stored (`writeValue_truncates`): the sign-extending branch of
`reshape` is never reached. `read_value` at the same offset returns the bytes written (`readValue_after_writeValue`);
a narrower value panics (`writeValue_rejects_narrower`).
-/

namespace AluVm

open Cursor

namespace Cursor

/-- Whenever `write_value` returns, with `Ok` or with an error, the value was at least as wide as the register and the
bytes from the byte offset are its first `reg.bits() / 8` bytes: the value is cut to the register and never extended,
so its sign plays no part. -/
theorem writeValue_truncates {reg : RegisterSet} {v : Number} {c c' : Cursor} {r : Except CursorError Unit}
    (h : writeValue reg v c = some (r, c')) :
    reg.bits.val / 8 ≤ v.len ∧
      range c'.bytecode c.bytePos.val (c.bytePos.val + reg.bits.val / 8) = some (v.bytes.take (reg.bits.val / 8)) := by
  simp only [writeValue] at h
  split_ifs at h with hv
  obtain ⟨bs, hbs, hinc⟩ := Option.bind_eq_some.1 h
  rw [len_reshape_register, Number.bytes_reshape_of_le v _ hv] at hbs
  exact ⟨hv, (incBytes_bytecode hinc).1 ▸ range_copyFromSlice hbs⟩

theorem writeValue_truncates_signed :
    (⟨16⟩ : RegisterSet).bits.val / 8 ≤ (⟨[5#8, 0x86#8, 0xFF#8], true⟩ : Number).len ∧
      range [5#8, 0x86#8, 0#8] 0 (0 + (⟨16⟩ : RegisterSet).bits.val / 8) =
        some ([5#8, 0x86#8, 0xFF#8].take ((⟨16⟩ : RegisterSet).bits.val / 8)) :=
  @writeValue_truncates ⟨16⟩ ⟨[5#8, 0x86#8, 0xFF#8], true⟩ ⟨[0#8, 0#8, 0#8], 0, 0, false⟩
    ⟨[5#8, 0x86#8, 0#8], 2, 0, false⟩ (.ok ()) (by decide)

/-- `read_value` at the offset of a `write_value` that returned `Ok` reads the bytes written, unsigned, and moves as
the write did. -/
theorem readValue_after_writeValue {reg : RegisterSet} {v : Number} {c c' : Cursor}
    (h : writeValue reg v c = some (.ok (), c')) :
    (ReadOp.readValue reg).call { c with bytecode := c'.bytecode } =
      some (.ok (.value reg (.fromSlice (v.reshape (reg.layout.usingSign v.layout)).bytes)), c') := by
  simp only [writeValue] at h
  split_ifs at h with hv
  obtain ⟨bs, hbs, h⟩ := Option.bind_eq_some.1 h
  have he : c.eof = false := (incBytes_ok h).2.1
  have hc : c'.bytecode = bs := (incBytes_bytecode h).1
  rw [he] at h
  rw [len_reshape_register] at hbs
  simp only [ReadOp.call, readValue, hc, he, Bool.false_eq_true, if_false, range_copyFromSlice hbs, Option.some_bind,
    h, Option.map_some', putValue_ok, mapResult, Except.map]

theorem readValue_after_writeValue_three_bytes :
    (ReadOp.readValue ⟨16⟩).call ⟨[5#8, 6#8, 0#8], 0, 0, false⟩ =
      some (.ok (.value ⟨16⟩ (.fromSlice [5#8, 6#8])), ⟨[5#8, 6#8, 0#8], 2, 0, false⟩) :=
  @readValue_after_writeValue ⟨16⟩ ⟨[5#8, 6#8, 7#8], true⟩ ⟨[0#8, 0#8, 0#8], 0, 0, false⟩ ⟨[5#8, 6#8, 0#8], 2, 0, false⟩
    (by decide)

end Cursor

/-- `write_value` panics on a one-byte value for a 16-bit register, and writes a three-byte one cut to two bytes. -/
theorem writeValue_rejects_narrower :
    (Field.value ⟨16⟩ ⟨[5#8], false⟩).write (withBytecode [0#8, 0#8]) = none ∧
      (Field.value ⟨16⟩ ⟨[5#8, 6#8, 7#8], false⟩).write (withBytecode [0#8, 0#8]) =
        some (.ok (), ⟨[5#8, 6#8], 2, 0, false⟩) := by
  decide

end AluVm
