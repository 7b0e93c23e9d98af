import AluVm.Cursor.Bits
import AluVm.Cursor.Ops

/-!
# What a write does

`WriteSpec span size moved` is what a call of a write method that returns has done: it stored only into the `span`
bits from the cursor's bit offset; on `Ok` it was off the end of data and passed `size` bits; on an error it kept the
bit offset and the flag, and the byte offset up to `moved` bytes; it failed with `Err(Eof)` only if the flag was set.
Every write method meets it with the `span` and
`size` of its field (`Field.write_spec`); `write_slice` passes `4 + len` bytes, two more than its field holds, and
fails with its byte offset moved past the length prefix when the final advance fails.
-/

namespace AluVm

open Cursor

namespace Field

/-- The bits a write of the field stores into, from the cursor's bit offset on. -/
def span : Field → Nat
  | .bool _ => 1
  | .bits w _ => w.bits
  | .u8 _ => 8
  | .u16 _ => 16
  | .i16 _ => 16
  | .bytes32 _ => 256
  | .slice v => 8 * (2 + v.length)
  | .value reg _ => 8 * (reg.bits.val / 8)

/-- The bits a call that writes or reads the field passes: `read_slice` and `write_slice` pass `4 + len` bytes. -/
def size : Field → Nat
  | .bool _ => 1
  | .bits w _ => w.bits
  | .u8 _ => 8
  | .u16 _ => 16
  | .i16 _ => 16
  | .bytes32 _ => 256
  | .slice v => 8 * (4 + v.length)
  | .value reg _ => 8 * (reg.bits.val / 8)

theorem span_le_size (f : Field) : f.span ≤ f.size := by
  cases f <;> simp only [span, size] <;> omega

/-- The bytes a failed write of the field may have moved the byte offset by. -/
def moved : Field → Nat
  | .slice _ => 2
  | _ => 0

end Field

/-- What a write that returns has done, given the bits it may store into, the bits it passes on `Ok`, and the bytes it
may have moved by on an error. -/
structure WriteSpec (span size moved : Nat) (c c' : Cursor) (r : Except CursorError Unit) : Prop where
  frame : Unchanged c.bytecode c'.bytecode c.bitOffset (c.bitOffset + span)
  ok : r = .ok () → c.eof = false ∧ c'.consumed = c.consumed + size
  error : r ≠ .ok () → c'.bitPos = c.bitPos ∧ c'.eof = c.eof ∧
    (c'.bytePos = c.bytePos ∨ c'.bytePos.val = c.bytePos.val + moved)
  eof : r = .error .eof → c.eof = true

namespace Cursor

@[simp] theorem consumed_bytecode (c : Cursor) (bs : List (BitVec 8)) :
    ({ c with bytecode := bs } : Cursor).consumed = c.consumed := rfl

@[simp] theorem bitOffset_bytecode (c : Cursor) (bs : List (BitVec 8)) :
    ({ c with bytecode := bs } : Cursor).bitOffset = c.bitOffset := rfl

/-- A store into the `span` bits from a byte boundary, then `inc_bytes(k)`. -/
theorem writeSpec_of_incBytes {c c' : Cursor} {bs : List (BitVec 8)} {k : Fin 65536} {span : Nat}
    {r : Except CursorError Unit} (hbs : Unchanged c.bytecode bs (8 * c.bytePos.val) (8 * c.bytePos.val + span))
    (h : incBytes { c with bytecode := bs } k = some (r, c')) : WriteSpec span (8 * k.val) 0 c c' r := by
  have h0 : c.bitPos.val = 0 := by have := incBytes_bitPos h; exact this
  have hb : c.bitOffset = 8 * c.bytePos.val := by simp [bitOffset, h0]
  refine ⟨by rw [hb, (incBytes_bytecode h).1]; exact hbs, fun hr => ?_, fun hr => ?_, fun hr => ?_⟩
  · subst hr
    exact ⟨(incBytes_ok h).2.1, (incBytes_consumed h).trans rfl⟩
  · obtain ⟨e, rfl⟩ : ∃ e, r = .error e := by cases r <;> simp_all
    obtain ⟨rfl, -⟩ := incBytes_error h
    exact ⟨rfl, rfl, .inl rfl⟩
  · subst hr
    obtain ⟨-, -, ⟨he, -⟩ | ⟨-, ⟨⟩, -⟩⟩ := incBytes_error h
    exact he

/-- `deposit`: `bs[p] |= data << b` with `data` of `n` bits, then `inc_bits(n)`. -/
theorem deposit_spec {data : BitVec 8} {n : Fin 8} {c c' : Cursor} {r : Except CursorError Unit}
    (hd : ∀ j, n.val ≤ j → data.getLsbD j = false) (h : deposit data n c = some (r, c')) :
    WriteSpec n.val n.val 0 c c' r := by
  simp only [deposit, Option.map_eq_some'] at h
  obtain ⟨bs, hbs, hx⟩ := h
  have hf : Unchanged c.bytecode c'.bytecode c.bitOffset (c.bitOffset + n.val) := by
    rw [show c' = (incBits { c with bytecode := bs } n).2 by rw [hx], incBits_bytecode]
    exact unchanged_orByte hbs hd
  cases he : c.eof
  · obtain ⟨hr, hc⟩ := incBits_consumed (c := { c with bytecode := bs }) he n
    rw [hx] at hr hc
    subst hr
    exact ⟨hf, fun _ => ⟨he, hc⟩, fun h => absurd rfl h, fun h => by cases h⟩
  · rw [incBits_of_eof (c := { c with bytecode := bs }) he, Prod.mk.injEq] at hx
    obtain ⟨rfl, rfl⟩ := hx
    exact ⟨hf, (fun h => by cases h), fun _ => ⟨rfl, rfl, .inl rfl⟩, fun _ => he⟩

theorem writeBool_spec {b : Bool} {c c' : Cursor} {r : Except CursorError Unit} (h : writeBool b c = some (r, c')) :
    WriteSpec 1 1 0 c c' r :=
  deposit_spec (fun j hj => by cases b <;> simp [show j ≠ 0 by omega]) h

theorem writeUN_spec {w : Width} {v : BitVec w.bits} {c c' : Cursor} {r : Except CursorError Unit}
    (h : writeUN w v c = some (r, c')) : WriteSpec w.bits w.bits 0 c c' r :=
  deposit_spec (fun j hj => by simp [BitVec.getLsbD_ge v j hj]) h

theorem writeU8_spec {v : BitVec 8} {c c' : Cursor} {r : Except CursorError Unit} (h : writeU8 v c = some (r, c')) :
    WriteSpec 8 8 0 c c' r := by
  simp only [writeU8, Option.bind_eq_some] at h
  obtain ⟨bs, hbs, h⟩ := h
  obtain ⟨-, rfl⟩ := setByte_eq_some hbs
  exact writeSpec_of_incBytes (unchanged_set ..) h

theorem writeLe16_spec {v : BitVec 16} {c c' : Cursor} {r : Except CursorError Unit}
    (h : writeLe16 v c = some (r, c')) : WriteSpec 16 16 0 c c' r := by
  simp only [writeLe16, Option.bind_eq_some] at h
  obtain ⟨bs₁, h₁, bs₂, h₂, h⟩ := h
  obtain ⟨-, rfl⟩ := setByte_eq_some h₁
  obtain ⟨-, rfl⟩ := setByte_eq_some h₂
  refine writeSpec_of_incBytes ?_ h
  exact ((unchanged_set ..).mono le_rfl (by omega)).trans ((unchanged_set ..).mono (by omega) (by omega))

theorem writeBytes32_spec {v : Bytes32} {c c' : Cursor} {r : Except CursorError Unit}
    (h : writeBytes32 v c = some (r, c')) : WriteSpec 256 256 0 c c' r := by
  simp only [writeBytes32, Option.bind_eq_some] at h
  obtain ⟨bs, hbs, h⟩ := h
  exact writeSpec_of_incBytes ((unchanged_copyFromSlice hbs).mono le_rfl (by omega)) h

theorem writeValue_spec {reg : RegisterSet} {v : Number} {c c' : Cursor} {r : Except CursorError Unit}
    (h : writeValue reg v c = some (r, c')) :
    WriteSpec (8 * (reg.bits.val / 8)) (8 * (reg.bits.val / 8)) 0 c c' r := by
  simp only [writeValue] at h
  split_ifs at h with hl
  simp only [Option.bind_eq_some] at h
  obtain ⟨bs, hbs, h⟩ := h
  refine writeSpec_of_incBytes ((unchanged_copyFromSlice hbs).mono le_rfl ?_) h
  rw [len_reshape_register]; omega

theorem u16Add_eq_some {a b : Nat} {m : Fin 65536} (h : u16Add a b = some m) : m.val = a + b := by
  unfold u16Add at h
  split_ifs at h
  cases h
  rfl

/-- An `Ok` advance by other than one byte moves the byte offset and keeps the flag. -/
theorem incBytes_ok_pos {c c' : Cursor} {k : Fin 65536} (h : incBytes c k = some (.ok (), c')) (hk : k.val ≠ 1) :
    c'.eof = c.eof ∧ c'.bytePos.val = c.bytePos.val + k.val ∧ c'.bitPos = c.bitPos := by
  obtain ⟨-, -, h⟩ := incBytes_ok h
  obtain ⟨-, hb, (⟨he, hp⟩ | ⟨-, hk', -⟩)⟩ := incBytesInner_ok_cases h
  · exact ⟨he, hp, hb⟩
  · exact absurd hk' hk

/-- `write_u16` that returns `Ok` was aligned and off the end of data, and moved two bytes on. -/
theorem writeLe16_ok {v : BitVec 16} {c c' : Cursor} (h : writeLe16 v c = some (.ok (), c')) :
    c.bitPos.val = 0 ∧ c.eof = false ∧ c'.eof = false ∧ c'.bitPos = c.bitPos ∧ c'.bytePos.val = c.bytePos.val + 2 := by
  simp only [writeLe16, Option.bind_eq_some] at h
  obtain ⟨bs₁, -, bs₂, -, h⟩ := h
  obtain ⟨h0, he, -⟩ := incBytes_ok h
  obtain ⟨he', hp, hb⟩ := incBytes_ok_pos h (by decide)
  exact ⟨h0, he, he'.trans he, hb, hp⟩

theorem writeSlice_spec {v : List (BitVec 8)} {c c' : Cursor} {r : Except CursorError Unit}
    (h : writeSlice v c = some (r, c')) : WriteSpec (8 * (2 + v.length)) (8 * (4 + v.length)) 2 c c' r := by
  simp only [writeSlice] at h
  split_ifs at h with hl
  · obtain ⟨rfl, rfl⟩ := Prod.mk.inj (Option.some.inj h)
    exact ⟨Unchanged.refl .., (fun h => by cases h), (fun _ => ⟨rfl, rfl, .inl rfl⟩), fun h => by cases h⟩
  obtain ⟨⟨r₁, c₁⟩, h₁, h⟩ := Option.bind_eq_some.1 h
  have s₁ := writeLe16_spec h₁
  cases r₁ with
  | error e =>
    obtain ⟨rfl, rfl⟩ := Prod.mk.inj (Option.some.inj h)
    obtain ⟨hb, he, hp⟩ := s₁.error (by simp)
    exact ⟨s₁.frame.mono le_rfl (by omega), (fun h => by cases h),
      (fun _ => ⟨hb, he, .inl (hp.elim id fun hp => Fin.ext (by simpa using hp))⟩), s₁.eof⟩
  | ok u =>
    obtain ⟨h0, he, he₁, hb₁, hp₁⟩ := writeLe16_ok h₁
    simp only [Option.bind_eq_some] at h
    obtain ⟨bs, hbs, m, hm, h⟩ := h
    have hm' := u16Add_eq_some hm
    have s₂ : WriteSpec (8 * v.length) _ _ c₁ c' r :=
      writeSpec_of_incBytes ((unchanged_copyFromSlice hbs).mono le_rfl (by omega)) h
    have ho : c.bitOffset = 8 * c.bytePos.val := by simp [bitOffset, h0]
    have ho₁ : c₁.bitOffset = 8 * c.bytePos.val + 16 := by simp [bitOffset, hb₁, h0, hp₁]; omega
    refine ⟨?_, fun hr => ?_, fun hr => ?_, fun hr => absurd (s₂.eof hr) (by simp [he₁])⟩
    · rw [ho]
      exact (s₁.frame.mono (by omega) (by omega)).trans ((ho₁ ▸ s₂.frame).mono (by omega) (by omega))
    · obtain ⟨-, h₂⟩ := s₂.ok hr
      rw [h₂, (s₁.ok rfl).2, hm']
      exact ⟨he, by omega⟩
    · obtain ⟨hb, he', hp⟩ := s₂.error hr
      refine ⟨hb.trans hb₁, he'.trans (he₁.trans he.symm), .inr ?_⟩
      rcases hp with hp | hp <;> simp only [hp, hp₁]

end Cursor

namespace Field

/-- Every write that returns meets the spec of its field. -/
theorem write_spec {f : Field} {c c' : Cursor} {r : Except CursorError Unit} (h : f.write c = some (r, c')) :
    WriteSpec f.span f.size f.moved c c' r := by
  cases f with
  | bool b => exact writeBool_spec h
  | bits w v => exact writeUN_spec h
  | u8 v => exact writeU8_spec h
  | u16 v | i16 v => exact writeLe16_spec h
  | bytes32 v => exact writeBytes32_spec h
  | slice v => exact writeSlice_spec h
  | value reg n => exact writeValue_spec h

end Field

end AluVm
