import AluVm.Cursor.ReadSpec

/-!
# Position accounting

Along a run whose calls all return `Ok`, the bits passed add up: the cursor a run of writes leaves has passed the sum
of `Field.size` of the fields written (`runWrites_consumed`), and one a run of reads leaves the sum over the fields read
(`runReads_consumed`; `peek_u8` passes nothing and is left out). A slice of `L` bytes counts `8 * (4 + L)` bits, not
the `8 * (2 + L)` it occupies: `write_slice` and `read_slice` pass the length prefix in `write_u16`/`read_u16` and then
`2 + len` more bytes in `inc_bytes` (`slice_advances_four_bytes`).

Whatever the calls return, no call moves a cursor back: a failed call keeps the bit offset and the flag and may only
have passed a slice's length prefix, so the bits passed never decrease along a run of reads
(`runReads_consumed_mono`) or of writes (`runWrites_consumed_mono`). Only `seek` moves a cursor back.
-/

namespace AluVm

open Cursor

/-- The cursor a run leaves: that of its last call, or the one it started from. -/
def lastCursor {α : Type} (c : Cursor) (tr : List (Except CursorError α × Cursor)) : Cursor :=
  (tr.getLast?.map Prod.snd).getD c

@[simp] theorem lastCursor_nil {α : Type} (c : Cursor) : lastCursor (α := α) c [] = c := rfl

@[simp] theorem lastCursor_cons {α : Type} (c : Cursor) (x : Except CursorError α × Cursor) (tr : List _) :
    lastCursor c (x :: tr) = lastCursor x.2 tr := by
  cases tr <;> simp [lastCursor, List.getLast?_cons]

/-- Off the end of data the bits passed are the bit offset. -/
theorem consumed_of_not_eof {c : Cursor} (he : c.eof = false) : c.consumed = c.bitOffset := by
  simp [consumed, he]

/-- At a byte boundary and off the end of data the bits passed are those of the whole bytes before. -/
theorem consumed_of_aligned {c : Cursor} (h0 : c.bitPos.val = 0) (he : c.eof = false) :
    c.consumed = 8 * c.bytePos.val := by
  simp [consumed, bitOffset, he, h0]

/-- A run of writes that all return `Ok` passes the sum of the sizes of the fields written. -/
theorem runWrites_consumed : ∀ {c : Cursor} {fs : List Field} {tr : List (Except CursorError Unit × Cursor)},
    runWrites c fs = some tr → (∀ x ∈ tr, x.1 = .ok ()) →
      (lastCursor c tr).consumed = c.consumed + (fs.map Field.size).sum
  | c, [], tr, h, _ => by cases h; simp
  | c, f :: fs, tr, h, hok => by
    obtain ⟨r, c', tr', h₁, h₂, rfl⟩ := runWrites_cons_eq_some h
    obtain rfl : r = .ok () := hok _ (List.mem_cons_self _ _)
    rw [lastCursor_cons, runWrites_consumed h₂ fun x hx => hok x (List.mem_cons_of_mem _ hx),
      ((Field.write_spec h₁).ok rfl).2, List.map_cons, List.sum_cons, Nat.add_assoc]

theorem runWrites_consumed_u8_slice_bits :
    (lastCursor (withBytecode (List.replicate 7 0#8))
      ((runWrites (withBytecode (List.replicate 7 0#8)) [.u8 7#8, .slice [9#8], .bits .u3 5#3]).getD [])).consumed =
      (withBytecode (List.replicate 7 0#8)).consumed + ([.u8 7#8, .slice [9#8], .bits .u3 5#3].map Field.size).sum :=
  runWrites_consumed (by decide) (by decide)

/-- A run of reads other than `peek_u8` that all return `Ok` passes the sum of the sizes of the fields read. -/
theorem runReads_consumed : ∀ {c : Cursor} {os : List ReadOp} {tr : List (Except CursorError Field × Cursor)}
    {vs : List Field}, runReads c os = some tr → .peekU8 ∉ os → tr.map Prod.fst = vs.map .ok →
      (lastCursor c tr).consumed = c.consumed + (vs.map Field.size).sum
  | c, [], tr, vs, h, _, hv => by
    cases h
    cases vs with
    | nil => simp
    | cons => cases hv
  | c, o :: os, tr, vs, h, ho, hv => by
    obtain ⟨r, c', tr', h₁, h₃, rfl⟩ := runReads_cons_eq_some h
    cases vs with
    | nil => cases hv
    | cons v vs =>
      simp only [List.map_cons, List.cons.injEq] at hv
      rw [lastCursor_cons, runReads_consumed h₃ (fun h => ho (List.mem_cons_of_mem _ h)) hv.2,
        ((ReadOp.call_spec (fun h => ho (h ▸ List.mem_cons_self _ _)) h₁).ok v hv.1).2, List.map_cons, List.sum_cons,
        Nat.add_assoc]

theorem runReads_consumed_u8_slice_bits :
    (lastCursor (withBytecode [7#8, 1#8, 0#8, 9#8, 0#8, 0#8, 5#8])
      ((runReads (withBytecode [7#8, 1#8, 0#8, 9#8, 0#8, 0#8, 5#8])
        [.readU8, .readSlice, .readU .u3]).getD [])).consumed =
      (withBytecode [7#8, 1#8, 0#8, 9#8, 0#8, 0#8, 5#8]).consumed +
        ([.u8 7#8, .slice [9#8], .bits .u3 5#3].map Field.size).sum :=
  @runReads_consumed _ [.readU8, .readSlice, .readU .u3] _ _ (by decide) (by decide) (by decide)

/-! ## Cursors only move forward -/

/-- A cursor with the bit offset and the flag of `c`, at the byte offset of `c` or `m` bytes on, has passed at least
as many bits. -/
theorem consumed_le_of_moved {c c' : Cursor} {m : Nat} (hb : c'.bitPos = c.bitPos) (he : c'.eof = c.eof)
    (hp : c'.bytePos = c.bytePos ∨ c'.bytePos.val = c.bytePos.val + m) : c.consumed ≤ c'.consumed := by
  simp only [consumed, bitOffset, hb, he]
  rcases hp with hp | hp
  · rw [hp]
  · omega

/-- No read moves the cursor back, whatever it returns. -/
theorem ReadOp.consumed_le {o : ReadOp} {c c' : Cursor} {r : Except CursorError Field} (h : o.call c = some (r, c')) :
    c.consumed ≤ c'.consumed := by
  by_cases ho : o = .peekU8
  · subst ho
    rw [ReadOp.call_peekU8 h]
  have s := ReadOp.call_spec ho h
  cases r with
  | ok v => exact (s.ok v rfl).2 ▸ Nat.le_add_right _ _
  | error e =>
    obtain ⟨hb, he, hp⟩ := s.error e rfl
    exact consumed_le_of_moved hb he hp

/-- No write moves the cursor back, whatever it returns. -/
theorem Field.consumed_le {f : Field} {c c' : Cursor} {r : Except CursorError Unit} (h : f.write c = some (r, c')) :
    c.consumed ≤ c'.consumed := by
  have s := Field.write_spec h
  by_cases hr : r = .ok ()
  · exact (s.ok hr).2 ▸ Nat.le_add_right _ _
  · obtain ⟨hb, he, hp⟩ := s.error hr
    exact consumed_le_of_moved hb he hp

/-- Along a run of reads, whatever each returns, the bits passed never decrease. -/
theorem runReads_consumed_mono : ∀ {c : Cursor} {os : List ReadOp} {tr : List (Except CursorError Field × Cursor)},
    runReads c os = some tr → List.Chain (· ≤ ·) c.consumed (tr.map fun x => x.2.consumed)
  | _, [], _, h => by cases h; exact .nil
  | _, _ :: _, _, h => by
    obtain ⟨r, c', tr', h₁, h₂, rfl⟩ := runReads_cons_eq_some h
    exact .cons (ReadOp.consumed_le h₁) (runReads_consumed_mono h₂)

theorem runReads_consumed_mono_error_u8 :
    List.Chain (· ≤ ·) (withBytecode [0xFD#8, 0xFF#8, 7#8]).consumed
      (((runReads (withBytecode [0xFD#8, 0xFF#8, 7#8]) [.readSlice, .readU8]).getD []).map fun x => x.2.consumed) :=
  @runReads_consumed_mono _ [.readSlice, .readU8] _ (by decide)

/-- Along a run of writes, whatever each returns, the bits passed never decrease. -/
theorem runWrites_consumed_mono : ∀ {c : Cursor} {fs : List Field} {tr : List (Except CursorError Unit × Cursor)},
    runWrites c fs = some tr → List.Chain (· ≤ ·) c.consumed (tr.map fun x => x.2.consumed)
  | _, [], _, h => by cases h; exact .nil
  | _, _ :: _, _, h => by
    obtain ⟨r, c', tr', h₁, h₂, rfl⟩ := runWrites_cons_eq_some h
    exact .cons (Field.consumed_le h₁) (runWrites_consumed_mono h₂)

theorem runWrites_consumed_mono_slice_u8 :
    List.Chain (· ≤ ·) (withBytecode (List.replicate 6 0#8)).consumed
      (((runWrites (withBytecode (List.replicate 6 0#8)) [.slice [9#8], .u8 7#8]).getD []).map fun x => x.2.consumed) :=
  @runWrites_consumed_mono _ [.slice [9#8], .u8 7#8] _ (by decide)

/-- Writing or reading an empty slice at the start of four bytes moves the cursor to byte `4`, not `2`. -/
theorem slice_advances_four_bytes :
    (Field.slice []).write (withBytecode [0#8, 0#8, 0#8, 0#8]) = some (.ok (), ⟨[0#8, 0#8, 0#8, 0#8], 4, 0, false⟩) ∧
      ReadOp.readSlice.call (withBytecode [0#8, 0#8, 0#8, 0#8]) =
        some (.ok (.slice []), ⟨[0#8, 0#8, 0#8, 0#8], 4, 0, false⟩) := by
  decide

end AluVm
