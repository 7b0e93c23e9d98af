import AluVm.Cursor.Position

/-!
# Calls look only at the bytes they pass

A read indexes the byte string at its byte offset and, for the byte-aligned ones, at the bytes it then passes; the
bounds checks of `extract`, `range` and `read_bytes32` look at the same bytes. So a read that returns `Ok` returns the
same on any byte string with the same first `m` bytes, once those hold every bit it passes
(`ReadOp.call_swap_tail`), and so does a run of reads that all return `Ok` (`runReads_swap_tail`): what follows the
bytes a decoder has passed, of any length, never changes what it decoded. `peek_u8` is left out, as it looks at a
byte it does not pass.

A write stores into its field from the bit offset on, and on `Ok` it passes at least its field, so a run of writes
that all return `Ok` changes no bit outside those it passes (`runWrites_frame`). A failed write may have stored past
where its cursor stays (`write_u16` at byte `65534` stores two bytes and fails on the advance), so the run is one of
`Ok`s.
-/

namespace AluVm

open Cursor

/-! ## Byte strings with the same first `m` bytes -/

section

variable {bs B : List (BitVec 8)} {m : Nat}

theorem getElem?_of_take_eq (hB : B.take m = bs.take m) {i : Nat} (hi : i < m) : B[i]? = bs[i]? := by
  rw [← List.getElem?_take_of_lt hi, hB, List.getElem?_take_of_lt hi]

theorem le_length_of_take_eq (hB : B.take m = bs.take m) {k : Nat} (hk : k ≤ m) :
    k ≤ B.length ↔ k ≤ bs.length := by
  have := congrArg List.length hB
  simp only [List.length_take] at this
  omega

theorem take_drop_of_take_eq (hB : B.take m = bs.take m) {s k : Nat} (hk : s + k ≤ m) :
    (B.drop s).take k = (bs.drop s).take k := by
  have h : ∀ l : List (BitVec 8), (l.drop s).take k = ((l.take m).drop s).take k := fun l => by
    rw [List.drop_take, List.take_take, Nat.min_eq_left (by omega)]
  rw [h B, hB, ← h bs]

theorem range_of_take_eq (hB : B.take m = bs.take m) {s e : Nat} (he : e ≤ m) : range B s e = range bs s e := by
  simp only [range, le_length_of_take_eq hB he]
  split_ifs with h
  · rw [take_drop_of_take_eq hB (by omega)]
  · rfl

end

/-! ## One read -/

namespace Cursor

variable {B : List (BitVec 8)} {m : Nat}

/-- `inc_bytes(k)` returning `Ok` with the cursor it leaves within the first `m` bytes: the `k` bytes it passed are
below byte `m`. -/
theorem incBytes_bound {c c' : Cursor} {k : Fin 65536} (h : incBytes c k = some (.ok (), c'))
    (hm : c'.consumed ≤ 8 * m) : c.bytePos.val + k.val ≤ m := by
  obtain ⟨h0, he, -⟩ := incBytes_ok h
  have := incBytes_consumed h
  rw [consumed_of_aligned h0 he] at this
  omega

theorem incBytes_putValue_swap_tail {α : Type} {c c' : Cursor} {k : Fin 65536} {v : α}
    (h : incBytes c k = some (.ok (), c')) (B : List (BitVec 8)) :
    (incBytes { c with bytecode := B } k).map (putValue v) = some (.ok v, { c' with bytecode := B }) := by
  rw [incBytes_bytecode_eq, h]
  rfl

/-- `extract` looks only at the byte at the byte offset. -/
theorem extract_swap_tail {c c' : Cursor} {n : Fin 8} {b : BitVec 8} (h : extract c n = some (.ok b, c'))
    (hp : c.bytePos.val < m) (hB : B.take m = c.bytecode.take m) :
    extract { c with bytecode := B } n = some (.ok b, { c' with bytecode := B }) := by
  have he : c.eof = false := ((extract_spec h).ok b rfl).1
  simp only [extract, he, Bool.false_eq_true, if_false, Option.map_eq_some'] at h
  obtain ⟨byte, hbyte, hx⟩ := h
  rw [extract, if_neg (by simp [he]), getElem?_of_take_eq hB hp, hbyte, Option.map_some', incBits_bytecode_eq]
  generalize incBits c n = x at hx
  obtain ⟨r, c₁⟩ := x
  simp only [putValue, Prod.mk.injEq] at hx ⊢
  obtain ⟨h₁, rfl⟩ := hx
  rw [h₁]

/-- `extract` of `n > 0` bits returning `Ok` with the cursor it leaves within the first `m` bytes started below byte
`m`. -/
theorem extract_bound {c c' : Cursor} {n : Fin 8} {b : BitVec 8} (h : extract c n = some (.ok b, c'))
    (hn : 0 < n.val) (hm : c'.consumed ≤ 8 * m) : c.bytePos.val < m := by
  obtain ⟨he, hc⟩ := (extract_spec h).ok b rfl
  rw [consumed_of_not_eof he] at hc
  simp only [bitOffset] at hc
  omega

theorem readBool_swap_tail {c c' : Cursor} {b : Bool} (h : readBool c = some (.ok b, c')) (hm : c'.consumed ≤ 8 * m)
    (hB : B.take m = c.bytecode.take m) :
    readBool { c with bytecode := B } = some (.ok b, { c' with bytecode := B }) := by
  have he : c.eof = false := ((readBool_spec h).ok b rfl).1
  simp only [readBool, he, Bool.false_eq_true, if_false, Option.map_eq_some'] at h
  obtain ⟨⟨r₁, c₁⟩, h₁, hx⟩ := h
  simp only [Prod.mk.injEq] at hx
  obtain ⟨hr, rfl⟩ := hx
  cases r₁ with
  | error => cases hr
  | ok b₁ =>
    rw [readBool, if_neg (by simp [he]), extract_swap_tail h₁ (extract_bound h₁ (by decide) hm) hB]
    simpa using hr

theorem readUN_swap_tail {w : Width} {c c' : Cursor} {v : BitVec w.bits} (h : readUN w c = some (.ok v, c'))
    (hm : c'.consumed ≤ 8 * m) (hB : B.take m = c.bytecode.take m) :
    readUN w { c with bytecode := B } = some (.ok v, { c' with bytecode := B }) := by
  obtain ⟨⟨r₁, c₁⟩, h₁, hx⟩ := Option.bind_eq_some.1 h
  cases r₁ with
  | error => cases hx
  | ok b₁ =>
    obtain ⟨v₁, hv, hx⟩ := Option.map_eq_some'.1 hx
    simp only [Prod.mk.injEq, Except.ok.injEq] at hx
    obtain ⟨rfl, rfl⟩ := hx
    rw [readUN, extract_swap_tail h₁ (extract_bound h₁ w.bits_pos hm) hB]
    simp [hv]

theorem readU8_swap_tail {c c' : Cursor} {v : BitVec 8} (h : readU8 c = some (.ok v, c')) (hm : c'.consumed ≤ 8 * m)
    (hB : B.take m = c.bytecode.take m) :
    readU8 { c with bytecode := B } = some (.ok v, { c' with bytecode := B }) := by
  have he : c.eof = false := ((readU8_spec h).ok v rfl).1
  simp only [readU8, he, Bool.false_eq_true, if_false] at h
  obtain ⟨byte, hbyte, h⟩ := Option.bind_eq_some.1 h
  obtain ⟨rfl, hinc⟩ := incBytes_putValue_ok h
  have hp : c.bytePos.val + 1 ≤ m := incBytes_bound hinc hm
  rw [readU8, if_neg (by simp [he])]
  dsimp only
  rw [getElem?_of_take_eq hB (by omega), hbyte, Option.some_bind, incBytes_putValue_swap_tail hinc]

theorem readLe16_swap_tail {c c' : Cursor} {w : BitVec 16} (h : readLe16 c = some (.ok w, c'))
    (hm : c'.consumed ≤ 8 * m) (hB : B.take m = c.bytecode.take m) :
    readLe16 { c with bytecode := B } = some (.ok w, { c' with bytecode := B }) := by
  have he : c.eof = false := ((readLe16_spec h).ok w rfl).1
  simp only [readLe16, he, Bool.false_eq_true, if_false] at h
  obtain ⟨buf, hbuf, h⟩ := Option.bind_eq_some.1 h
  obtain ⟨rfl, hinc⟩ := incBytes_putValue_ok h
  have hp : c.bytePos.val + 2 ≤ m := incBytes_bound hinc hm
  rw [readLe16, if_neg (by simp [he])]
  simp only [range_of_take_eq hB hp, hbuf, Option.some_bind, incBytes_putValue_swap_tail hinc]

theorem readBytes32_swap_tail {c c' : Cursor} {v : Bytes32} (h : readBytes32 c = some (.ok v, c'))
    (hm : c'.consumed ≤ 8 * m) (hB : B.take m = c.bytecode.take m) :
    readBytes32 { c with bytecode := B } = some (.ok v, { c' with bytecode := B }) := by
  have he : c.eof = false := ((readBytes32_spec h).ok v rfl).1
  simp only [readBytes32, he, Bool.false_eq_true, if_false] at h
  split_ifs at h with hl
  obtain ⟨rfl, hinc⟩ := incBytes_putValue_ok h
  have hp : c.bytePos.val + 32 ≤ m := incBytes_bound hinc hm
  rw [readBytes32, if_neg (by simp [he])]
  dsimp only
  rw [dif_pos ((le_length_of_take_eq hB hp).2 hl), incBytes_putValue_swap_tail hinc]
  simp only [take_drop_of_take_eq hB hp]

theorem readValue_swap_tail {reg : RegisterSet} {c c' : Cursor} {v : Number} (h : readValue reg c = some (.ok v, c'))
    (hm : c'.consumed ≤ 8 * m) (hB : B.take m = c.bytecode.take m) :
    readValue reg { c with bytecode := B } = some (.ok v, { c' with bytecode := B }) := by
  have he : c.eof = false := ((readValue_spec h).ok v rfl).1
  simp only [readValue, he, Bool.false_eq_true, if_false] at h
  obtain ⟨s, hs, h⟩ := Option.bind_eq_some.1 h
  obtain ⟨rfl, hinc⟩ := incBytes_putValue_ok h
  have hp := incBytes_bound hinc hm
  rw [readValue, if_neg (by simp [he])]
  simp only [range_of_take_eq hB hp, hs, Option.some_bind, incBytes_putValue_swap_tail hinc]

theorem readSlice_swap_tail {c c' : Cursor} {v : List (BitVec 8)} (h : readSlice c = some (.ok v, c'))
    (hm : c'.consumed ≤ 8 * m) (hB : B.take m = c.bytecode.take m) :
    readSlice { c with bytecode := B } = some (.ok v, { c' with bytecode := B }) := by
  have he : c.eof = false := ((readSlice_spec h).ok v rfl).1
  simp only [readSlice, he, Bool.false_eq_true, if_false] at h
  obtain ⟨⟨r₁, c₁⟩, h₁, h⟩ := Option.bind_eq_some.1 h
  rcases r₁ with e | word
  · cases h
  obtain ⟨n, hn, h⟩ := Option.bind_eq_some.1 h
  obtain ⟨⟨r₂, c₂⟩, h₂, h⟩ := Option.bind_eq_some.1 h
  rcases r₂ with e | u
  · cases h
  obtain ⟨x, hx, ⟨⟩⟩ := Option.map_eq_some'.1 h
  obtain ⟨-, hbc₁, he₁, hb₁, hp₁⟩ := readLe16_ok h₁
  have hq := incBytes_bound h₂ hm
  have hc₁ : c₁.consumed ≤ 8 * m := by
    rw [consumed_of_aligned (incBytes_ok h₂).1 he₁]
    omega
  rw [readSlice, if_neg (by simp [he])]
  simp only [readU16, readLe16_swap_tail h₁ hc₁ hB, Option.some_bind, hn, incBytes_bytecode_eq, h₂, Option.map_some']
  have hB' : B.take m = c'.bytecode.take m := by rw [(incBytes_bytecode h₂).1, hbc₁]; exact hB
  rw [range_of_take_eq hB' (by rw [u16Add_eq_some hn] at hq; omega), hx]
  rfl

end Cursor

namespace ReadOp

/-- A read other than `peek_u8` that returns `Ok` returns the same on any byte string with the same first `m` bytes,
when those hold every bit it passes. -/
theorem call_swap_tail {o : ReadOp} {c c' : Cursor} {v : Field} {B : List (BitVec 8)} {m : Nat} (ho : o ≠ .peekU8)
    (h : o.call c = some (.ok v, c')) (hm : c'.consumed ≤ 8 * m) (hB : B.take m = c.bytecode.take m) :
    o.call { c with bytecode := B } = some (.ok v, { c' with bytecode := B }) := by
  cases o
  case peekU8 => exact absurd rfl ho
  all_goals obtain ⟨a, h₀, rfl⟩ := mapResult_eq_ok h
  case readBool => simp only [call, mapResult, readBool_swap_tail h₀ hm hB]; rfl
  case readU w => simp only [call, mapResult, readUN_swap_tail h₀ hm hB]; rfl
  case readU8 => simp only [call, mapResult, readU8_swap_tail h₀ hm hB]; rfl
  case readU16 => simp only [call, mapResult, Cursor.readU16, readLe16_swap_tail h₀ hm hB]; rfl
  case readI16 => simp only [call, mapResult, Cursor.readI16, readLe16_swap_tail h₀ hm hB]; rfl
  case readBytes32 => simp only [call, mapResult, readBytes32_swap_tail h₀ hm hB]; rfl
  case readSlice => simp only [call, mapResult, readSlice_swap_tail h₀ hm hB]; rfl
  case readValue reg => simp only [call, mapResult, readValue_swap_tail h₀ hm hB]; rfl

end ReadOp

/-! ## Runs -/

/-- A run of reads ends at least as far on as it starts. -/
theorem runReads_consumed_le : ∀ {c : Cursor} {os : List ReadOp} {tr : List (Except CursorError Field × Cursor)},
    runReads c os = some tr → c.consumed ≤ (lastCursor c tr).consumed
  | _, [], _, h => by cases h; exact le_rfl
  | _, _ :: _, _, h => by
    obtain ⟨r, c', tr', h₁, h₂, rfl⟩ := runReads_cons_eq_some h
    rw [lastCursor_cons]
    exact (ReadOp.consumed_le h₁).trans (runReads_consumed_le h₂)

/-- A run of reads other than `peek_u8` that all return `Ok` returns the same, call by call, on any byte string with
the same first `m` bytes, when those hold every bit the run passes. -/
theorem runReads_swap_tail : ∀ {c : Cursor} {os : List ReadOp} {tr : List (Except CursorError Field × Cursor)}
    {vs : List Field} {B : List (BitVec 8)} {m : Nat}, runReads c os = some tr → .peekU8 ∉ os →
      tr.map Prod.fst = vs.map .ok → (lastCursor c tr).consumed ≤ 8 * m → B.take m = c.bytecode.take m →
      runReads { c with bytecode := B } os = some (tr.map fun x => (x.1, { x.2 with bytecode := B }))
  | c, [], tr, vs, B, m, h, _, _, _, _ => by cases h; rfl
  | c, o :: os, tr, vs, B, m, h, ho, hv, hm, hB => by
    obtain ⟨r, c', tr', h₁, h₂, rfl⟩ := runReads_cons_eq_some h
    cases vs with
    | nil => cases hv
    | cons v vs =>
      simp only [List.map_cons, List.cons.injEq] at hv
      obtain ⟨rfl, hv⟩ := hv
      rw [lastCursor_cons] at hm
      have h₁' := ReadOp.call_swap_tail (fun h => ho (h ▸ List.mem_cons_self _ _)) h₁
        ((runReads_consumed_le h₂).trans hm) hB
      have hB₁ : B.take m = c'.bytecode.take m := by rw [ReadOp.call_bytecode h₁]; exact hB
      have h₂' := runReads_swap_tail h₂ (fun h => ho (List.mem_cons_of_mem _ h)) hv hm hB₁
      simp only [runReads, h₁', h₂', Option.some_bind, Option.map_some', List.map_cons]

theorem runReads_swap_tail_ff :
    runReads { withBytecode [7#8, 1#8, 0#8, 9#8, 0#8, 0#8, 5#8] with
        bytecode := [7#8, 1#8, 0#8, 9#8, 0#8, 0#8, 5#8, 0xFF#8] } [.readU8, .readSlice, .readU .u3] =
      some (((runReads (withBytecode [7#8, 1#8, 0#8, 9#8, 0#8, 0#8, 5#8]) [.readU8, .readSlice, .readU .u3]).getD
        []).map fun x => (x.1, { x.2 with bytecode := [7#8, 1#8, 0#8, 9#8, 0#8, 0#8, 5#8, 0xFF#8] })) :=
  @runReads_swap_tail _ [.readU8, .readSlice, .readU .u3] _ [.u8 7#8, .slice [9#8], .bits .u3 5#3] _ 7 (by decide)
    (by decide) (by decide) (by decide) (by decide)

/-! ## Writes -/

/-- A write that returns `Ok` stores only into the bits it passes. -/
theorem Field.write_unchanged {f : Field} {c c' : Cursor} (h : f.write c = some (.ok (), c')) :
    Unchanged c.bytecode c'.bytecode c.consumed c'.consumed := by
  have s := write_spec h
  obtain ⟨he, hc⟩ := s.ok rfl
  rw [hc, consumed_of_not_eof he]
  exact s.frame.mono le_rfl (Nat.add_le_add_left f.span_le_size _)

/-- A run of writes ends at least as far on as it starts. -/
theorem runWrites_consumed_le : ∀ {c : Cursor} {fs : List Field} {tr : List (Except CursorError Unit × Cursor)},
    runWrites c fs = some tr → c.consumed ≤ (lastCursor c tr).consumed
  | _, [], _, h => by cases h; exact le_rfl
  | _, _ :: _, _, h => by
    obtain ⟨r, c', tr', h₁, h₂, rfl⟩ := runWrites_cons_eq_some h
    rw [lastCursor_cons]
    exact (Field.consumed_le h₁).trans (runWrites_consumed_le h₂)

/-- A run of writes that all return `Ok` changes no bit outside those it passes. -/
theorem runWrites_frame : ∀ {c : Cursor} {fs : List Field} {tr : List (Except CursorError Unit × Cursor)},
    runWrites c fs = some tr → (∀ x ∈ tr, x.1 = .ok ()) →
      Unchanged c.bytecode (lastCursor c tr).bytecode c.consumed (lastCursor c tr).consumed
  | c, [], tr, h, _ => by cases h; exact Unchanged.refl ..
  | c, f :: fs, tr, h, hok => by
    obtain ⟨r, c', tr', h₁, h₂, rfl⟩ := runWrites_cons_eq_some h
    obtain rfl : r = .ok () := hok _ (List.mem_cons_self _ _)
    rw [lastCursor_cons]
    have hrest := runWrites_frame h₂ fun x hx => hok x (List.mem_cons_of_mem _ hx)
    exact ((Field.write_unchanged h₁).mono le_rfl (runWrites_consumed_le h₂)).trans
      (hrest.mono (Field.consumed_le h₁) le_rfl)

theorem runWrites_frame_slice_u8 :
    Unchanged (withBytecode (List.replicate 6 0#8)).bytecode
      (lastCursor (withBytecode (List.replicate 6 0#8))
        ((runWrites (withBytecode (List.replicate 6 0#8)) [.slice [9#8], .u8 7#8]).getD [])).bytecode
      (withBytecode (List.replicate 6 0#8)).consumed
      (lastCursor (withBytecode (List.replicate 6 0#8))
        ((runWrites (withBytecode (List.replicate 6 0#8)) [.slice [9#8], .u8 7#8]).getD [])).consumed :=
  @runWrites_frame _ [.slice [9#8], .u8 7#8] _ (by decide) (by decide)

end AluVm
