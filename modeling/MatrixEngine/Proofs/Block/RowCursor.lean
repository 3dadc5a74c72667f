/-
The rows that a cursor over a compressed block returns.

The buffer of a cursor holds the rows of the last batch end to end (`RowCursor.Valid`): a refill makes it so, and a call
that finds its row in the batch leaves the buffer alone. So a call returns the row at the position of the cursor,
wherever the batch began, until the end of the range is met (`next?_eq`); from then on it returns nothing.
- `drain_ofRange`: all rows of a range, in order.
- `At.call`: what one call returns, and where it leaves the cursor.
- `calls_return_rows`: what each of any number of calls returns, as rows of the dense block that was compressed.
-/
import MatrixEngine.Proofs.Block.Compression
import MatrixEngine.Proofs.Number.Sums

namespace MatrixEngine

open Cell

/-! ## Rows laid end to end -/

section Rows

variable {β : Type} {row : Nat → Array β} {length n : Nat}

theorem size_of_rows (hrow : ∀ r < n, (row r).size = length) :
    ((List.range n).foldl (fun buffer r => buffer ++ row r) #[]).size = n * length := by
  induction n with
  | zero => simp
  | succ n ih =>
    rw [List.range_succ, List.foldl_append, List.foldl_cons, List.foldl_nil, Array.size_append,
      ih fun r hr => hrow r (Nat.lt_succ_of_lt hr), hrow n (Nat.lt_succ_self n), Nat.succ_mul]

/-- row `k` lies between `k` and `k + 1` times the length of rows -/
theorem extract_of_rows (hrow : ∀ r < n, (row r).size = length) {k : Nat} (hk : k < n) :
    ((List.range n).foldl (fun buffer r => buffer ++ row r) #[]).extract (k * length) (k * length + length) =
      row k := by
  induction n with
  | zero => omega
  | succ n ih =>
    have hfront := size_of_rows fun r hr => hrow r (Nat.lt_succ_of_lt hr)
    rw [List.range_succ, List.foldl_append, List.foldl_cons, List.foldl_nil, Array.extract_append, hfront]
    rcases Nat.lt_or_ge k n with hlt | hge
    · have hend : k * length + length ≤ n * length := by
        rw [← Nat.succ_mul]
        exact Nat.mul_le_mul_right _ hlt
      rw [ih (fun r hr => hrow r (Nat.lt_succ_of_lt hr)) hlt, Nat.sub_eq_zero_of_le hend, Array.extract_zero,
        Array.append_empty]
    · obtain rfl : k = n := by omega
      have hlast : (row k).extract 0 length = row k := by rw [← hrow k hk, Array.extract_size]
      rw [Array.extract_empty_of_size_le_start hfront.le, Nat.sub_self, Nat.add_sub_cancel_left, hlast,
        Array.empty_append]

end Rows

variable {α : Type} [Cell α]

omit [Cell α] in
theorem ColumnGroup.size_writeRow (g : ColumnGroup α) (i : Nat) (out : Array α) : (g.writeRow i out).size = out.size :=
  size_foldl_set _ _ _ _

theorem Compressed.size_row (c : Compressed α) (i : Nat) : (c.row i).size = c.cols := by
  have hgroups : ∀ (groups : List (ColumnGroup α)) (out : Array α),
      (groups.foldl (fun out g => g.writeRow i out) out).size = out.size := by
    intro groups
    induction groups with
    | nil => exact fun out => rfl
    | cons g groups ih => exact fun out => (ih _).trans (g.size_writeRow i out)
  rw [row, hgroups, size_zeros]

namespace RowCursor

/-! ## The batch -/

/-- the buffer holds the rows of the batch, and the position is not before it -/
structure Valid (cur : RowCursor α) : Prop where
  start_le : cur.batchStart ≤ cur.position
  batch : ∀ k < cur.batchLength,
    cur.buffer.extract (k * cur.block.cols) (k * cur.block.cols + cur.block.cols) = cur.block.row (cur.batchStart + k)

theorem valid_ofRange (c : Compressed α) (rl ru : Nat) : (ofRange c rl ru).Valid :=
  ⟨le_rfl, fun k h => absurd h (Nat.not_lt_zero k)⟩

/-- after a refill the buffer holds the new batch, whatever it held before -/
theorem valid_refill (cur : RowCursor α) : cur.refill.Valid :=
  ⟨le_rfl, fun _ hk => extract_of_rows (fun _ _ => cur.block.size_row _) hk⟩

/-- a refilled batch holds the row at the position if there is one -/
theorem refill_covers {cur : RowCursor α} (h : cur.position < cur.stop) :
    cur.position < cur.refill.batchStart + cur.refill.batchLength := by
  simp only [refill, batchRows]
  omega

theorem row_of_batch {cur : RowCursor α} (hv : cur.Valid) (h : cur.position < cur.batchStart + cur.batchLength) :
    cur.buffer.extract ((cur.position - cur.batchStart) * cur.block.cols)
      ((cur.position - cur.batchStart) * cur.block.cols + cur.block.cols) = cur.block.row cur.position := by
  have hle := hv.start_le
  rw [hv.batch _ (by omega), Nat.add_sub_cancel' hle]

/-! ## Calls -/

/-- **A cursor returns the row at its position** and stands behind it, over the same rows as before. -/
theorem next?_eq {cur : RowCursor α} (hv : cur.Valid) (h : cur.position < cur.stop) :
    ∃ cur', cur.next? = some (cur.block.row cur.position, cur') ∧ cur'.Valid ∧ cur'.block = cur.block ∧
      cur'.position = cur.position + 1 ∧ cur'.stop = cur.stop := by
  unfold next?
  rw [if_pos h]
  simp only
  split_ifs with hb
  · have hv' := valid_refill cur
    have hrow := row_of_batch hv' (refill_covers h)
    refine ⟨{ cur.refill with position := cur.position + 1 }, ?_, ⟨?_, hv'.batch⟩, rfl, rfl, rfl⟩
    · exact congrArg (fun row => some (row, _)) hrow
    · exact Nat.le_succ_of_le hv'.start_le
  · refine ⟨{ cur with position := cur.position + 1 }, ?_, ⟨?_, hv.batch⟩, rfl, rfl, rfl⟩
    · rw [row_of_batch hv (by omega)]
    · exact Nat.le_succ_of_le hv.start_le

theorem take_eq (n : Nat) {cur : RowCursor α} (hv : cur.Valid) (h : cur.position + n ≤ cur.stop) :
    (take n cur).1 = (List.range' cur.position n).map cur.block.row := by
  induction n generalizing cur with
  | zero => rfl
  | succ n ih =>
    obtain ⟨cur', hnext, hv', hblock, hpos, hstop⟩ := next?_eq hv (by omega)
    unfold take
    simp only [hnext]
    rw [ih hv' (by omega), hblock, hpos, List.range'_succ, List.map_cons]

/-- **A cursor over a range returns the rows of the range in order.** -/
theorem drain_ofRange (c : Compressed α) (rl ru : Nat) :
    (ofRange c rl ru).drain.1 = (List.range' rl (min ru c.rows - rl)).map c.row := by
  unfold drain
  rcases Nat.lt_or_ge rl (min ru c.rows) with h | h
  · refine take_eq _ (valid_ofRange c rl ru) ?_
    simp only [ofRange]
    omega
  · have hzero : min ru c.rows - rl = 0 := by omega
    simp only [ofRange, hzero]
    rfl

/-- a call for the next row: what it returns, and the cursor it leaves; at the end the cursor stays where it is -/
def call (cur : RowCursor α) : Option (Array α) × RowCursor α :=
  match cur.next? with
  | none => (none, cur)
  | some (row, cur') => (some row, cur')

/-- the cursor that `n` calls leave -/
def afterCalls (cur : RowCursor α) : Nat → RowCursor α
  | 0 => cur
  | n + 1 => (cur.afterCalls n).call.2

/-- the cursor goes over the rows of a block up to `stop` and stands before row `position` -/
structure At (cur : RowCursor α) (c : Compressed α) (stop position : Nat) : Prop where
  valid : cur.Valid
  block : cur.block = c
  stop : cur.stop = stop
  position : cur.position = position

variable {c : Compressed α} {cur : RowCursor α} {stop position : Nat}

/-- before the end a call returns the next row and moves one row on -/
theorem At.call (h : cur.At c stop position) (hlt : position < stop) :
    cur.call.1 = some (c.row position) ∧ cur.call.2.At c stop (position + 1) := by
  have hcur : cur.position < cur.stop := by rw [h.position, h.stop]; exact hlt
  obtain ⟨cur', hnext, hvalid, hblock, hposition, hstop⟩ := next?_eq h.valid hcur
  have hcall : cur.call = (some (cur.block.row cur.position), cur') := by rw [RowCursor.call, hnext]
  rw [hcall, h.block, h.position]
  exact ⟨rfl, hvalid, hblock.trans h.block, hstop.trans h.stop, by rw [hposition, h.position]⟩

theorem At.call_end (h : cur.At c stop position) (hge : stop ≤ position) : cur.call = (none, cur) := by
  have hnext : cur.next? = none := if_neg (by rw [h.position, h.stop]; omega)
  rw [RowCursor.call, hnext]

/-- calls move the cursor row by row as far as the range goes -/
theorem at_afterCalls (c : Compressed α) (rl ru n : Nat) :
    ((ofRange c rl ru).afterCalls n).At c (min ru c.rows) (rl + min n (min ru c.rows - rl)) := by
  induction n with
  | zero => exact ⟨valid_ofRange c rl ru, rfl, rfl, by simp [afterCalls, ofRange]⟩
  | succ n ih =>
    rcases Nat.lt_or_ge n (min ru c.rows - rl) with hlt | hge
    · have hnext := (ih.call (by omega)).2
      rw [show rl + min n (min ru c.rows - rl) + 1 = rl + min (n + 1) (min ru c.rows - rl) by omega] at hnext
      exact hnext
    · have hsame : (ofRange c rl ru).afterCalls (n + 1) = (ofRange c rl ru).afterCalls n :=
        congrArg Prod.snd (ih.call_end (by omega))
      rw [hsame, Nat.min_eq_right (Nat.le_succ_of_le hge)]
      rwa [Nat.min_eq_right hge] at ih

variable [DecidableEq α]

/-- **A cursor over a range of a compressed block returns the rows of the dense block.** Whatever the batches are, the
`n`-th call after the first returns row `rl + n`, which is the position of the cursor before it, if that row lies before
the end of the range and of the block. All other calls return nothing. Of the dense block it is asked only that its
buffer has all its cells. -/
theorem calls_return_rows {d : Dense α} (hd : d.Full) {width : Nat} (hc : Compressed.ofDense d width = .ok c)
    (rl ru n : Nat) :
    if rl + n < min ru d.rows then
      ((ofRange c rl ru).afterCalls n).position = rl + n ∧
        ∃ row, d.row? (rl + n) = some row ∧ ((ofRange c rl ru).afterCalls n).call.1 = some row
    else
      ((ofRange c rl ru).afterCalls n).call.1 = none := by
  have hat := at_afterCalls c rl ru n
  have hrows : c.rows = d.rows := (Compressed.ofDense_ok hc).2.1
  rw [hrows] at hat
  split_ifs with hlt
  · have hplace : rl + min n (min ru d.rows - rl) = rl + n := by omega
    rw [hplace] at hat
    have hrow : rl + n < d.rows := hlt.trans_le (Nat.min_le_right ru d.rows)
    refine ⟨hat.position, d.row (rl + n), if_pos (hd.row_end_le hrow), ?_⟩
    rw [(hat.call hlt).1, Compressed.row_ofDense hc hd hrow]
  · rw [hat.call_end (by omega)]

/-- a column of 33 sevens and a nine -/
def longColumn : Dense Int := ⟨34, 1, (Array.replicate 33 7).push 9, 34⟩

/-- from row 1 on: the first batch has the rows up to the last seven, and the call behind it returns the nine -/
theorem nine_in_second_batch : ∃ c, Compressed.ofDense longColumn 1 = .ok c ∧
    ((ofRange c 1 100).afterCalls 32).position = 33 ∧ ((ofRange c 1 100).afterCalls 32).call.1 = some #[9] := by
  have hc : Compressed.ofDense longColumn 1 =
      .ok ⟨34, 1, [⟨#[0], #[#[7], #[9]], (Array.replicate 33 0).push 1⟩], 34⟩ := by decide +kernel
  have hfull : longColumn.Full := le_refl 34
  have hrun := calls_return_rows hfull hc 1 100 32
  obtain ⟨hposition, row, hrow, hcall⟩ := (if_pos (by decide)).mp hrun
  obtain rfl : #[9] = row := by
    have : longColumn.row? 33 = some #[9] := by decide
    exact Option.some.inj (this.symm.trans hrow)
  exact ⟨_, hc, hposition, hcall⟩

end RowCursor

end MatrixEngine
