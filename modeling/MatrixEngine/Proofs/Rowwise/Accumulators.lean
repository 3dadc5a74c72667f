/-
Row types that aggregate: a parallel run is the serial run, in exact arithmetic.

Every row adds a contribution to the same cells (`Kernel.Accumulates`). A serial run adds them up in one buffer, in
row order; a parallel run adds up those of each range in a buffer of its own and then adds up these buffers.
- `sumCells_flatten`: adding up sums of parts is adding up the whole, if addition is associative with zero as unit.
- `fresh_sumCells`: a run over any rows is the sum of their contributions.
- `executeParallel_sums`: for every block, number of tasks and settings, both runs return the block in which each cell
  is the sum of what the rows contribute to it.
-/
import MatrixEngine.Proofs.Block.Cells
import MatrixEngine.Proofs.Number.Sums
import MatrixEngine.Proofs.Rowwise.Runs
import MatrixEngine.Proofs.Rowwise.Writes
import MatrixEngine.Rowwise.Kernels.Standard

namespace MatrixEngine

open Cell

variable {α : Type} [Cell α]

/-! ## Sums of contributions -/

def addCells (a b : List α) : List α := a.zipWith (· + ·) b

/-- contributions to `cells` cells added up in order -/
def sumCells (cells : Nat) (gs : List (List α)) : List α := gs.foldl addCells (List.replicate cells zero)

theorem addCells_assoc [ExactSum α] (a b c : List α) : addCells (addCells a b) c = addCells a (addCells b c) := by
  induction a generalizing b c with
  | nil => rfl
  | cons x a ih =>
    cases b with
    | nil => rfl
    | cons y b =>
      cases c with
      | nil => rfl
      | cons z c =>
        have hrest := ih b c
        simp only [addCells] at hrest ⊢
        simp only [List.zipWith_cons_cons, ExactSum.add_assoc, hrest]

theorem zeros_addCells [ExactSum α] (g : List α) : addCells (List.replicate g.length zero) g = g := by
  induction g with
  | nil => rfl
  | cons x g ih =>
    simp only [addCells] at ih ⊢
    simp only [List.length_cons, List.replicate_succ, List.zipWith_cons_cons, ExactSum.zero_add, ih]

theorem addCells_zeros [ExactSum α] (g : List α) : addCells g (List.replicate g.length zero) = g := by
  induction g with
  | nil => rfl
  | cons x g ih =>
    simp only [addCells] at ih ⊢
    simp only [List.length_cons, List.replicate_succ, List.zipWith_cons_cons, ExactSum.add_zero, ih]

theorem length_foldl_addCells {cells : Nat} {gs : List (List α)} (hg : ∀ g ∈ gs, g.length = cells) {acc : List α}
    (ha : acc.length = cells) : (gs.foldl addCells acc).length = cells := by
  induction gs generalizing acc with
  | nil => exact ha
  | cons g gs ih =>
    refine ih (fun h hh => hg h (List.mem_cons_of_mem g hh)) ?_
    simp [addCells, ha, hg g List.mem_cons_self]

theorem length_sumCells {cells : Nat} {gs : List (List α)} (hg : ∀ g ∈ gs, g.length = cells) :
    (sumCells cells gs).length = cells :=
  length_foldl_addCells hg List.length_replicate

theorem foldl_addCells [ExactSum α] {cells : Nat} {gs : List (List α)} (hg : ∀ g ∈ gs, g.length = cells)
    {acc : List α} (ha : acc.length = cells) : gs.foldl addCells acc = addCells acc (sumCells cells gs) := by
  induction gs generalizing acc with
  | nil =>
    subst ha
    exact (addCells_zeros acc).symm
  | cons g gs ih =>
    have hlen : g.length = cells := hg g List.mem_cons_self
    have hrest : ∀ h ∈ gs, h.length = cells := fun h hh => hg h (List.mem_cons_of_mem g hh)
    have hzero : addCells (List.replicate cells zero) g = g := by
      subst hlen
      exact zeros_addCells g
    calc (g :: gs).foldl addCells acc = gs.foldl addCells (addCells acc g) := rfl
      _ = addCells (addCells acc g) (sumCells cells gs) := ih hrest (by simp [addCells, ha, hlen])
      _ = addCells acc (addCells g (sumCells cells gs)) := addCells_assoc _ _ _
      _ = addCells acc (gs.foldl addCells g) := by rw [ih hrest hlen]
      _ = addCells acc (sumCells cells (g :: gs)) := by rw [sumCells, List.foldl_cons, hzero]

/-- **Adding up the sums of parts** is adding up the whole. -/
theorem sumCells_flatten [ExactSum α] {cells : Nat} {parts : List (List (List α))}
    (hg : ∀ part ∈ parts, ∀ g ∈ part, g.length = cells) :
    sumCells cells (parts.map (sumCells cells)) = sumCells cells parts.flatten := by
  have hfold : ∀ acc : List α, acc.length = cells →
      (parts.map (sumCells cells)).foldl addCells acc = parts.flatten.foldl addCells acc := by
    induction parts with
    | nil => intro acc _; rfl
    | cons part parts ih =>
      intro acc ha
      have hpart := hg part List.mem_cons_self
      rw [List.map_cons, List.foldl_cons, List.flatten_cons, List.foldl_append, ← foldl_addCells hpart ha]
      exact ih (fun q hq => hg q (List.mem_cons_of_mem part hq)) _ (length_foldl_addCells hpart ha)
  exact hfold _ List.length_replicate

theorem getElem?_sumCells {cells : Nat} {gs : List (List α)} (hg : ∀ g ∈ gs, g.length = cells) {k : Nat}
    (hk : k < cells) : (sumCells cells gs)[k]? = some ((gs.map (·.getD k zero)).foldl (· + ·) zero) := by
  have hfold : ∀ acc : List α, acc.length = cells →
      (gs.foldl addCells acc)[k]? = some ((gs.map (·.getD k zero)).foldl (· + ·) (acc.getD k zero)) := by
    induction gs with
    | nil =>
      intro acc ha
      simp [List.getD_eq_getElem?_getD, List.getElem?_eq_getElem (ha ▸ hk)]
    | cons g gs ih =>
      intro acc ha
      have hlen : g.length = cells := hg g List.mem_cons_self
      have hcell : (addCells acc g).getD k zero = acc.getD k zero + g.getD k zero := by
        simp [addCells, List.getD_eq_getElem?_getD, List.getElem?_zipWith,
          List.getElem?_eq_getElem (ha ▸ hk), List.getElem?_eq_getElem (hlen ▸ hk)]
      rw [List.foldl_cons, ih (fun h hh => hg h (List.mem_cons_of_mem g hh)) _ (by simp [addCells, ha, hlen]), hcell,
        List.map_cons, List.foldl_cons]
  simpa [sumCells, List.getD_eq_getElem?_getD, hk] using hfold _ List.length_replicate

/-! ## Runs of an accumulating kernel -/

/-- a call for `v` on output cells of the full size adds `contribution v` to them, cell by cell, whatever calls for the
visits left in the scratch vectors -/
def Kernel.Accumulates (k : Kernel α) (env : KernelEnv α) (visits : List (Visit α)) (arena : Scratch α) (cells : Nat)
    (contribution : Visit α → List α) : Prop :=
  ∀ v ∈ visits, (contribution v).length = cells ∧
    ∀ s : RowState α cells, k.Lends env visits arena s.scratch →
      ∃ s', k.step env v 0 s = .ok () s' ∧ s'.out.toList = addCells s.out.toList (contribution v)

namespace Fused

variable {op : Fused α} {inputs : List (Block α)} {scalars : List α} {p : Prepared α} {arena : Scratch α}
  {visits : List (Visit α)} {contribution : Visit α → List α}

theorem runVisits_foldl (hw : op.rowType.aggregates = true)
    (hk : op.kernel.Accumulates p.env visits arena (p.rows * p.cols) contribution) (base : Nat) {vs : List (Visit α)}
    (hv : ∀ v ∈ vs, v ∈ visits) (s : RowState α (p.rows * p.cols))
    (hl : op.kernel.Lends p.env visits arena s.scratch) :
    ∃ s', op.runVisits p base vs s = .ok () s' ∧ s'.out.toList = (vs.map contribution).foldl addCells s.out.toList := by
  have hturns : op.kernel.Turns p.env visits arena (p.rows * p.cols) fun v out => addCells out (contribution v) :=
    fun v hv => (hk v hv).2
  obtain ⟨s', hrun, hout, -⟩ := runVisits_turns hw hturns base hv s hl
  exact ⟨s', hrun, hout.trans List.foldl_map.symm⟩

/-- **A run over any rows** is the sum of their contributions. -/
theorem fresh_sumCells (hw : op.rowType.aggregates = true)
    (hk : op.kernel.Accumulates p.env visits arena (p.rows * p.cols) contribution) (base : Nat) {vs : List (Visit α)}
    (hv : ∀ v ∈ vs, v ∈ visits) :
    op.fresh p arena base (p.rows * p.cols) vs = .ok (sumCells (p.rows * p.cols) (vs.map contribution)) := by
  obtain ⟨s', hrun, hout⟩ := runVisits_foldl hw hk base hv (RowState.zeros (p.rows * p.cols) arena) .acquired
  unfold fresh
  simp only [hrun, hout]
  simp [sumCells, Vector.toList, zeros]

/-! ## The merged accumulators -/

theorem toList_foldl_add {n : Nat} {parts : List (List α)} (hp : ∀ part ∈ parts, part.length = n) (c : Vector α n) :
    ((parts.map List.toArray).foldl (fun c part => (Write.add part 0).apply c) c).toList =
      parts.foldl addCells c.toList := by
  induction parts generalizing c with
  | nil => rfl
  | cons part parts ih =>
    have hadd := Write.add_whole part.toArray c (by simpa using hp part List.mem_cons_self)
    rw [List.map_cons, List.foldl_cons, List.foldl_cons, ih (fun q hq => hp q (List.mem_cons_of_mem part hq)), hadd,
      addCells]

/-- merging accumulators is closing an output that holds their sum -/
theorem mergeAccumulators_eq {parts : List (List α)} (hp : ∀ part ∈ parts, part.length = p.rows * p.cols) :
    mergeAccumulators p (parts.map List.toArray) =
      closeOutput p false ⟨p.rows, p.cols, (sumCells (p.rows * p.cols) parts).toArray, 0⟩ := by
  have hsum := toList_foldl_add hp (⟨zeros (p.rows * p.cols), by simp⟩ : Vector α (p.rows * p.cols))
  have hzero : (⟨zeros (p.rows * p.cols), by simp⟩ : Vector α (p.rows * p.cols)).toList =
      List.replicate (p.rows * p.cols) zero := by simp [Vector.toList, zeros]
  rw [hzero] at hsum
  unfold mergeAccumulators closeOutput
  simp only [sumCells, ← hsum, Vector.toList, Array.toArray_toList, Bool.false_eq_true, if_false]

/-- the place in the output of the kernel of the cell `(i, j)` that the caller finds -/
def layoutIndex (p : Prepared α) (i j : Nat) : Nat := if p.flip then j * p.rows + i else i * p.cols + j

omit [Cell α] in
theorem layoutIndex_lt {i j : Nat} (hi : i < p.rows) (hj : j < p.cols) : layoutIndex p i j < p.rows * p.cols := by
  unfold layoutIndex
  split_ifs
  · rw [Nat.mul_comm p.rows]
    exact rowMajor_lt hj hi
  · exact rowMajor_lt hi hj

/-- a closed output has the cells of the kernel's output in the caller's layout, with an exact count -/
theorem closeOutput_cells {vs : List α} (hvs : vs.length = p.rows * p.cols) {out : Dense α}
    (h : out = closeOutput p false ⟨p.rows, p.cols, vs.toArray, 0⟩) :
    out.rows = p.rows ∧ out.cols = p.cols ∧ out.Sized ∧ out.nnz = countNonZero out.values ∧
      ∀ i < p.rows, ∀ j < p.cols, out.get? i j = vs[layoutIndex p i j]? := by
  subst h
  unfold closeOutput
  by_cases hf : p.flip = true
  · have hsized : (Dense.swapDims ⟨p.rows, p.cols, vs.toArray, 0⟩).Sized := by
      simp [Dense.Sized, Dense.swapDims, hvs, Nat.mul_comm]
    simp only [hf, if_true, Bool.false_eq_true, if_false]
    refine ⟨rfl, rfl, hsized.transpose, rfl, fun i hi j hj => ?_⟩
    have hcell := Dense.get?_transpose hsized hi hj
    simpa [layoutIndex, hf, Dense.get?, Dense.pos, Dense.recount, Dense.swapDims] using hcell
  · simp only [hf, Bool.false_eq_true, if_false]
    refine ⟨rfl, rfl, by simpa [Dense.Sized, Dense.recount] using hvs, rfl, fun i hi j hj => ?_⟩
    simp [layoutIndex, hf, Dense.get?, Dense.pos, Dense.recount]

/-! ## Whole runs -/

/-- **A serial run is the sum of all contributions**, in the caller's layout. -/
theorem runFresh_sumCells (hw : op.rowType.aggregates = true) (ha : op.taskScratch p.env = .ok arena)
    (hk : op.kernel.Accumulates p.env (p.main.visits ⟨0, p.main.rows⟩) arena (p.rows * p.cols) contribution) :
    op.runFresh p = .ok (closeOutput p false ⟨p.rows, p.cols,
      (sumCells (p.rows * p.cols) ((p.main.visits ⟨0, p.main.rows⟩).map contribution)).toArray, 0⟩) := by
  rw [runFresh_eq ha, fresh_sumCells hw hk 0 fun v hv => hv]

/-- **A run in tasks is the same sum**, bracketed by ranges. -/
theorem runTasks_sumCells [ExactSum α] (hw : op.rowType.aggregates = true) (ha : op.taskScratch p.env = .ok arena)
    (hk : op.kernel.Accumulates p.env (p.main.visits ⟨0, p.main.rows⟩) arena (p.rows * p.cols) contribution) {k : Nat}
    (hf : op.fallsBack p inputs k = false) :
    op.runTasks p k = .ok (closeOutput p false ⟨p.rows, p.cols,
      (sumCells (p.rows * p.cols) ((p.main.visits ⟨0, p.main.rows⟩).map contribution)).toArray, 0⟩) := by
  obtain ⟨ranges, htiles, htasks⟩ := exists_tasks hf
  have hmem : ∀ r ∈ ranges, p.main.visits r ⊆ p.main.visits ⟨0, p.main.rows⟩ :=
    fun r hr => Block.visits_subset (htiles.stop_le r hr)
  have hlen : ∀ r ∈ ranges, ∀ g ∈ (p.main.visits r).map contribution, g.length = p.rows * p.cols := by
    intro r hr g hg
    obtain ⟨v, hv, rfl⟩ := List.mem_map.1 hg
    exact (hk v (hmem r hr hv)).1
  -- the accumulators of the tasks, and the rows of the ranges as those of the block
  set sums := ranges.map fun r => sumCells (p.rows * p.cols) ((p.main.visits r).map contribution) with hsums
  have htask : (ranges.map (op.taskOf p)).mapM (op.runTask p) = .ok (sums.map List.toArray) := by
    rw [Sequence.mapM_ok_iff, hsums, List.map_map, List.forall₂_map_left_iff, List.forall₂_map_right_iff,
      List.forall₂_same]
    intro r hr
    have hfresh := fresh_sumCells hw hk 0 fun _ hv => hmem r hr hv
    simp only [taskOf, hw, if_true]
    rw [runTask_eq ha, hfresh]
    rfl
  have hrows : (ranges.map fun r => (p.main.visits r).map contribution).flatten =
      (p.main.visits ⟨0, p.main.rows⟩).map contribution := by
    rw [← Block.visits_tiles htiles, List.map_flatten, List.map_map]
    rfl
  have hsum : sumCells (p.rows * p.cols) sums =
      sumCells (p.rows * p.cols) ((p.main.visits ⟨0, p.main.rows⟩).map contribution) := by
    rw [← hrows, ← sumCells_flatten (by simpa using hlen), List.map_map]
    rfl
  have hsized : ∀ part ∈ sums, part.length = p.rows * p.cols := by
    intro part hpart
    obtain ⟨r, hr, rfl⟩ := List.mem_map.1 hpart
    exact length_sumCells (hlen r hr)
  unfold runTasks
  simp only [htasks, TaskGroup.run_of_ok _ _ htask, hw, bind, Except.bind, pure, Except.pure, if_true,
    mergeAccumulators_eq hsized, hsum]

/-- **A parallel run of an aggregating type is the serial run**, for every block, every number of tasks and all
settings, if addition is associative with zero as unit. In both the cell `(i, j)` is the sum over all rows, from the
first to the last and each once, of what the row contributes to the place of that cell in the kernel's output. -/
theorem executeParallel_sums [ExactSum α] (op : Fused α) (inputs : List (Block α)) (scalars : List α) (k : Nat)
    (contribution : Visit α → List α) (hw : op.rowType.aggregates = true)
    (ha : ∀ p, op.prepare inputs scalars = .ok p → ∃ arena, op.taskScratch p.env = .ok arena)
    (hk : ∀ p arena, op.prepare inputs scalars = .ok p → op.taskScratch p.env = .ok arena →
      op.kernel.Accumulates p.env (p.main.visits ⟨0, p.main.rows⟩) arena (p.rows * p.cols) contribution) :
    op.executeParallel inputs scalars k = op.execute inputs scalars ∧
    ∀ p, op.prepare inputs scalars = .ok p → ∃ out, op.execute inputs scalars = .ok out ∧
      out.rows = p.rows ∧ out.cols = p.cols ∧ out.Sized ∧ out.nnz = countNonZero out.values ∧
      ∀ i < p.rows, ∀ j < p.cols, out.get? i j = some (((List.range p.main.rows).map fun row =>
        (contribution (p.main.visit row)).getD (layoutIndex p i j) zero).foldl (· + ·) zero) := by
  cases hp : op.prepare inputs scalars with
  | error e =>
    refine ⟨?_, fun p h => by cases h⟩
    simp only [executeParallel, execute, hp]
  | ok p =>
    obtain ⟨arena, hs⟩ := ha p hp
    have hacc := hk p arena hp hs
    have hserial := runFresh_sumCells hw hs hacc
    rw [execute_eq hp, executeParallel_eq hp]
    constructor
    · by_cases hf : op.fallsBack p inputs (op.grantedTasks k) = true
      · rw [if_pos hf]
      · rw [if_neg hf, hserial, runTasks_sumCells hw hs hacc (Bool.eq_false_iff.2 hf)]
    · intro p' hp'
      obtain rfl := Except.ok.inj hp'
      have hlen : ∀ g ∈ (p.main.visits ⟨0, p.main.rows⟩).map contribution, g.length = p.rows * p.cols := by
        intro g hg
        obtain ⟨v, hv, rfl⟩ := List.mem_map.1 hg
        exact (hacc v hv).1
      obtain ⟨hrows, hcols, hsized, hnnz, hcells⟩ := closeOutput_cells (p := p) (length_sumCells hlen) rfl
      refine ⟨_, hserial, hrows, hcols, hsized, hnnz, fun i hi j hj => ?_⟩
      rw [hcells i hi j hj, getElem?_sumCells hlen (layoutIndex_lt hi hj), Block.visits_all, List.map_map,
        List.map_map]
      rfl

end Fused

/-- scaled column sums add the scaled row, if all rows are dense and as long as the output -/
theorem Kernel.scaledColSum_accumulates {env : KernelEnv α} {visits : List (Visit α)} (arena : Scratch α) {cells : Nat}
    {s : α} (hs : env.scalars.head? = some s)
    (hv : ∀ v ∈ visits, ∃ a, v.data = .dense a ∧ a.size = cells) :
    scaledColSum.Accumulates env visits arena cells fun v => v.data.values.toList.map (· * s) := by
  intro v hmem
  obtain ⟨a, ha, hsize⟩ := hv v hmem
  refine ⟨by simp [ha, RowData.values, hsize], fun st _ => ?_⟩
  have hout : st.out.toList = [] ++ st.out.toList ++ [] := by simp
  obtain ⟨hfits, happly⟩ := Write.window_at (fun c x => c + x * s) a hout (by simpa using hsize)
  refine ⟨⟨(Write.multAdd a s 0).apply st.out, st.scratch⟩, ?_, ?_⟩
  · simp only [List.length_nil] at hfits
    simp [scaledColSum, firstScalar, hs, RowM.inBounds, ha, RowM.write, Write.multAdd, hfits, bind, EStateM.bind, pure,
      EStateM.pure]
  · simpa [Write.multAdd, addCells, ha, RowData.values, List.zipWith_map_right] using happly

/-- column sums in at most two tasks -/
def columnSums : Fused Int := ⟨.colAgg, .scaledColSum, none, false, 0, { parallelCells := 0, maxTasks := 2 }⟩

/-- the rows `[1, 2]`, `[3, 4]`, `[5, 6]` times ten, added up by columns -/
theorem column_sums_of_three_rows :
    columnSums.executeParallel [threeRows] [10] 2 = columnSums.execute [threeRows] [10] ∧
    ∃ out, columnSums.execute [threeRows] [10] = .ok out ∧ out.get? 0 0 = some 90 ∧ out.get? 0 1 = some 120 := by
  have hp : columnSums.prepare [threeRows] [10] = .ok ⟨threeRows, ⟨[], [10], 2, none⟩, 1, 2, false⟩ := rfl
  have hk : ∀ p arena, columnSums.prepare [threeRows] [10] = .ok p → columnSums.taskScratch p.env = .ok arena →
      columnSums.kernel.Accumulates p.env (p.main.visits ⟨0, p.main.rows⟩) arena (p.rows * p.cols)
        fun v => v.data.values.toList.map (· * 10) := by
    intro p arena h _
    obtain rfl := Except.ok.inj (hp.symm.trans h)
    refine Kernel.scaledColSum_accumulates arena rfl fun v hv => ?_
    rw [Block.visits_all] at hv
    obtain ⟨i, hi, rfl⟩ := List.mem_map.1 hv
    have hi3 : i < 3 := List.mem_range.1 hi
    refine ⟨_, rfl, ?_⟩
    simp [Dense.row, Dense.pos]
    omega
  obtain ⟨hsame, hsums⟩ :=
    Fused.executeParallel_sums columnSums [threeRows] [10] 2 _ rfl (fun _ _ => ⟨.empty, rfl⟩) hk
  obtain ⟨out, hout, -, -, -, -, hcells⟩ := hsums _ hp
  exact ⟨hsame, out, hout, (hcells 0 (by decide) 0 (by decide)).trans (by decide),
    (hcells 0 (by decide) 1 (by decide)).trans (by decide)⟩

end MatrixEngine
