/-
The row ranges planned for a parallel run lie end to end.

Every way of cutting `len` rows (equal sizes, aligned sizes, sizes by weight) gives sizes whose total is `len`. Laid end
to end they tile the rows, so a run over the ranges in order meets every row once and in order.
- `tiles_rangesFrom`: sizes laid from `start` on tile up to `start` plus their total.
- `tiles_plan`: a plan tiles the rows of its block, whatever the block, the number of tasks and the settings.
- `Tiles.rows_eq`: the rows of tiling ranges, one range behind the other, are all rows in order; every row lies in
  exactly one of them (`Tiles.existsUnique_range`).
-/
import MatrixEngine.Proofs.Number.Sums
import MatrixEngine.Rowwise.Kernel

namespace MatrixEngine.Partition

/-! ## Totals of the sizes -/

/-- the first `r` of `n` sizes are one longer -/
theorem total_balanced (n q r : Nat) :
    total ((List.range n).map fun i => q + if i < r then 1 else 0) = n * q + min n r := by
  induction n with
  | zero => simp
  | succ n ih =>
    rw [total_map_range_succ, ih, Nat.succ_mul]
    split_ifs <;> omega

theorem total_balancedSizes (len k : Nat) : total (balancedSizes len k) = len := by
  unfold balancedSizes
  simp only [total_balanced]
  set nk := min len (max k 1) with hnk
  rcases Nat.eq_zero_or_pos nk with h | h
  · have : len = 0 := by omega
    simp [h, this]
  · have hmod := Nat.mod_lt len h
    have hdiv := Nat.div_add_mod len nk
    omega

/-- blocks of one length cut off `len` one after the other -/
theorem total_blocks (n block len : Nat) :
    total ((List.range n).map fun i => min block (len - i * block)) = min (n * block) len := by
  induction n with
  | zero => simp
  | succ n ih =>
    rw [total_map_range_succ, ih, Nat.succ_mul]
    omega

theorem le_ceilDiv_mul (a : Nat) {b : Nat} (hb : 0 < b) : a ≤ ceilDiv a b * b := by
  have hdiv := Nat.div_add_mod (a + b - 1) b
  have hmod := Nat.mod_lt (a + b - 1) hb
  rw [Nat.mul_comm] at hdiv
  unfold ceilDiv
  omega

theorem ceilDiv_pos {a b : Nat} (ha : 0 < a) (hb : 0 < b) : 0 < ceilDiv a b := by
  have h := le_ceilDiv_mul a hb
  rcases Nat.eq_zero_or_pos (ceilDiv a b) with h0 | h0
  · rw [h0] at h; omega
  · exact h0

theorem total_alignedSizes (len k align : Nat) : total (alignedSizes len k align) = len := by
  unfold alignedSizes
  simp only [total_blocks]
  set block := ceilDiv (ceilDiv len (max k 1)) (max align 1) * max align 1
  rcases Nat.eq_zero_or_pos len with h | h
  · omega
  · have hblock : 0 < block := Nat.mul_pos (ceilDiv_pos (ceilDiv_pos h (by omega)) (by omega)) (by omega)
    have := le_ceilDiv_mul len hblock
    omega

/-- a cut has closed the rows before its start, and has not started behind the rows it has seen -/
def Cut.Closed (c : Cut) (seen : Nat) : Prop := total c.sizes = c.start ∧ c.start ≤ seen

theorem Cut.closed_step {c : Cut} {i : Nat} (h : c.Closed i) (len nk all : Nat) (weight : Nat → Nat) :
    (c.step len nk all weight i).Closed (i + 1) := by
  obtain ⟨hsum, hle⟩ := h
  unfold Cut.step
  simp only
  split_ifs
  · refine ⟨?_, le_rfl⟩
    simp only [total_cons, hsum]
    omega
  · exact ⟨hsum, by simp only; omega⟩

theorem Cut.closed_run (len nk all n : Nat) (weight : Nat → Nat) :
    ((List.range n).foldl (Cut.step len nk all weight) {}).Closed n := by
  induction n with
  | zero => exact ⟨rfl, le_rfl⟩
  | succ n ih =>
    rw [List.range_succ, List.foldl_append]
    exact Cut.closed_step ih len nk all weight

theorem total_weightedSizes (len nk : Nat) (weight : Nat → Nat) : total (weightedSizes len nk weight) = len := by
  unfold weightedSizes
  simp only
  split_ifs with h
  · simp only [total_nil]; omega
  · obtain ⟨hsum, hle⟩ := Cut.closed_run len (min len (max nk 1)) (totalWeight len weight) len weight
    rw [total_append, total_reverse, hsum]
    simp only [total_cons, total_nil]
    omega

variable {α : Type} [Cell α]

theorem total_sizes {b : Block α} {k : Nat} {config : RunConfig} {sizes : List Nat}
    (h : sizes? b k config = some sizes) : total sizes = b.rows := by
  cases b with
  | dense d =>
    obtain ⟨nk, -, rfl⟩ := Option.map_eq_some_iff.1 h
    exact total_balancedSizes _ _
  | sparse s =>
    obtain ⟨nk, -, rfl⟩ := Option.map_eq_some_iff.1 h
    simp only
    split_ifs
    · exact total_balancedSizes _ _
    · exact total_weightedSizes _ _ _
  | compressed c =>
    obtain rfl := Option.some.inj h
    exact total_alignedSizes _ _ _

/-! ## Ranges end to end -/

/-- the ranges cut the rows from `start` up to `stop` into non-empty pieces, one behind the other -/
def Tiles (start stop : Nat) : List RowRange → Prop
  | [] => start = stop
  | r :: rest => r.start = start ∧ start < r.stop ∧ Tiles r.stop stop rest

theorem tiles_rangesFrom (start : Nat) (sizes : List Nat) :
    Tiles start (start + total sizes) (rangesFrom start sizes) := by
  induction sizes generalizing start with
  | nil => rfl
  | cons n sizes ih =>
    unfold rangesFrom
    split_ifs with h
    · simpa [h] using ih start
    · refine ⟨rfl, by simp only; omega, ?_⟩
      simpa [Nat.add_assoc] using ih (start + n)

theorem rangesFrom_append (start : Nat) (before after : List Nat) :
    rangesFrom start (before ++ after) = rangesFrom start before ++ rangesFrom (start + total before) after := by
  induction before generalizing start with
  | nil => rfl
  | cons n before ih =>
    rw [List.cons_append, rangesFrom, rangesFrom, ih start, ih (start + n), total_cons, ← Nat.add_assoc]
    split_ifs with h
    · rw [h, Nat.add_zero]
    · rfl

/-- a range begins where the sizes before its own end -/
theorem mem_rangesFrom {start : Nat} {sizes : List Nat} {r : RowRange} (hr : r ∈ rangesFrom start sizes) :
    ∃ (i : Nat) (hi : i < sizes.length), 0 < sizes[i] ∧ r.start = start + total (sizes.take i) ∧
      r.stop = r.start + sizes[i] := by
  induction sizes generalizing start with
  | nil => cases hr
  | cons n sizes ih =>
    rw [rangesFrom] at hr
    have hlater : ∀ {s : Nat}, s = start + n → r ∈ rangesFrom s sizes → ∃ (i : Nat) (hi : i < (n :: sizes).length),
        0 < (n :: sizes)[i] ∧ r.start = start + total ((n :: sizes).take i) ∧ r.stop = r.start + (n :: sizes)[i] := by
      intro s hs hr
      obtain ⟨i, hi, hpos, hstart, hstop⟩ := ih hr
      refine ⟨i + 1, Nat.succ_lt_succ hi, hpos, ?_, hstop⟩
      rw [List.take_succ_cons, total_cons, hstart, hs, Nat.add_assoc]
    split_ifs at hr with h
    · exact hlater (by omega) hr
    · rcases List.mem_cons.1 hr with rfl | hr
      · exact ⟨0, Nat.succ_pos _, Nat.pos_of_ne_zero h, rfl, rfl⟩
      · exact hlater rfl hr

theorem length_rangesFrom {sizes : List Nat} (h : ∀ n ∈ sizes, 0 < n) (start : Nat) :
    (rangesFrom start sizes).length = sizes.length := by
  induction sizes generalizing start with
  | nil => rfl
  | cons n sizes ih =>
    have hn := h n List.mem_cons_self
    rw [rangesFrom, if_neg (by omega), List.length_cons, List.length_cons,
      ih (fun m hm => h m (List.mem_cons_of_mem n hm))]

/-- **A plan tiles the rows of its block.** -/
theorem tiles_plan {b : Block α} {k : Nat} {config : RunConfig} {ranges : List RowRange}
    (h : plan? b k config = some ranges) : Tiles 0 b.rows ranges := by
  obtain ⟨sizes, hs, rfl⟩ := Option.map_eq_some_iff.1 h
  simpa [total_sizes hs] using tiles_rangesFrom 0 sizes

theorem exists_plan (b : Block α) {k : Nat} (hk : 0 < k) (config : RunConfig) :
    ∃ ranges, plan? b k config = some ranges := by
  have hcount : ∀ len small, ∃ nk, chunkCount? len k small = some nk := by
    intro len small
    unfold chunkCount?
    split_ifs
    · exact ⟨_, rfl⟩
    · omega
    · exact ⟨_, rfl⟩
  unfold plan? sizes?
  cases b with
  | compressed c => exact ⟨_, rfl⟩
  | dense d =>
    obtain ⟨nk, hnk⟩ := hcount (Block.dense d).rows
      (decide ((Block.dense d).cells < wrapped (16 * config.parallelCells)))
    simp [hnk]
  | sparse s =>
    obtain ⟨nk, hnk⟩ := hcount (Block.sparse s).rows
      (decide ((Block.sparse s).cells < wrapped (16 * config.parallelCells)))
    simp [hnk]

namespace Tiles

variable {start stop : Nat} {ranges : List RowRange}

theorem start_le (h : Tiles start stop ranges) : start ≤ stop := by
  induction ranges generalizing start with
  | nil => exact le_of_eq h
  | cons r rest ih =>
    obtain ⟨-, hlt, hrest⟩ := h
    exact hlt.le.trans (ih hrest)

theorem stop_le (h : Tiles start stop ranges) : ∀ r ∈ ranges, r.stop ≤ stop := by
  induction ranges generalizing start with
  | nil => simp
  | cons r rest ih =>
    obtain ⟨-, -, hrest⟩ := h
    intro q hq
    rcases List.mem_cons.1 hq with rfl | hq
    · exact start_le hrest
    · exact ih hrest q hq

theorem le_start (h : Tiles start stop ranges) : ∀ r ∈ ranges, start ≤ r.start := by
  induction ranges generalizing start with
  | nil => simp
  | cons r rest ih =>
    obtain ⟨rfl, hlt, hrest⟩ := h
    intro q hq
    rcases List.mem_cons.1 hq with rfl | hq
    · exact le_rfl
    · exact hlt.le.trans (ih hrest q hq)

/-- every row lies in exactly one of the ranges -/
theorem existsUnique_range (h : Tiles start stop ranges) {i : Nat} (hlo : start ≤ i) (hhi : i < stop) :
    ∃! r, r ∈ ranges ∧ r.start ≤ i ∧ i < r.stop := by
  induction ranges generalizing start with
  | nil =>
    obtain rfl := h
    omega
  | cons r rest ih =>
    obtain ⟨rfl, hlt, hrest⟩ := h
    have hlater : ∀ q ∈ rest, r.stop ≤ q.start := hrest.le_start
    by_cases hi : i < r.stop
    · refine ⟨r, ⟨List.mem_cons_self, hlo, hi⟩, ?_⟩
      rintro q ⟨hq, hqi, -⟩
      rcases List.mem_cons.1 hq with rfl | hq
      · rfl
      · have := hlater q hq
        omega
    · obtain ⟨q, ⟨hq, hqi⟩, hunique⟩ := ih hrest (by omega)
      refine ⟨q, ⟨List.mem_cons_of_mem r hq, hqi⟩, ?_⟩
      rintro q' ⟨hq', hqi'⟩
      rcases List.mem_cons.1 hq' with rfl | hq'
      · omega
      · exact hunique q' ⟨hq', hqi'⟩

/-- **The rows of tiling ranges are all rows in order.** -/
theorem rows_eq (h : Tiles start stop ranges) : ranges.flatMap RowRange.rows = List.range' start (stop - start) := by
  induction ranges generalizing start with
  | nil => obtain rfl := h; simp
  | cons r rest ih =>
    obtain ⟨rfl, hlt, hrest⟩ := h
    have hle := start_le hrest
    rw [List.flatMap_cons, ih hrest, RowRange.rows, RowRange.size]
    have hmid : r.stop = r.start + (r.stop - r.start) := by omega
    have hsize : stop - r.start = (r.stop - r.start) + (stop - r.stop) := by omega
    conv_lhs => rw [hmid, Nat.add_sub_cancel_left]
    rw [List.range'_append_1, ← hmid, ← hsize]

/-- slices of tiling ranges, `width` cells for a row, have the cells of all rows together -/
theorem total_slices (h : Tiles start stop ranges) (width : Nat) :
    total (ranges.map fun r => r.size * width) = (stop - start) * width := by
  induction ranges generalizing start with
  | nil =>
    obtain rfl := h
    simp
  | cons r rest ih =>
    obtain ⟨rfl, hlt, hrest⟩ := h
    have hle := start_le hrest
    have hsize : r.size + (stop - r.stop) = stop - r.start := by
      rw [RowRange.size]
      omega
    rw [List.map_cons, total_cons, ih hrest, ← Nat.add_mul, hsize]

/-- what is made of the rows of tiling ranges, range by range, is made of all rows in order -/
theorem map_rows {γ : Type} {n : Nat} (h : Tiles 0 n ranges) (f : Nat → γ) :
    (ranges.map fun r => r.rows.map f).flatten = (RowRange.rows ⟨0, n⟩).map f := by
  rw [RowRange.rows, RowRange.size, ← h.rows_eq, List.map_flatMap, List.flatMap_def]

end Tiles

end MatrixEngine.Partition
