/-
What a run returns, whatever its kernel does: a block of the stated shape with all its cells there and a count that can
be relied on.

A kernel changes the values of the cells that it is lent and nothing else. The shape is settled around it: an output is
opened, or taken anew for each task; it is turned over where it was laid out transposed; the tasks are put together. The
count is taken from the cells at the end, or added up over slices, or stated as the number of cells.
- `shapes_openOutput`, `runOver_ok`, `shapes_closeOutput`: what a serial run does around the kernel keeps the shape.
- `runSerial_ok`, `runTasks_ok`: so does a serial run as a whole, and a run in tasks.
- `outputs_counted`: the shape, the cells and the count of everything that is returned.
-/
import MatrixEngine.Proofs.Block.StoredCount
import MatrixEngine.Proofs.Rowwise.Incremental
import MatrixEngine.Proofs.Rowwise.Outer
import MatrixEngine.Proofs.Rowwise.Slices

namespace MatrixEngine

open Cell

variable {α : Type} [Cell α]

/-- a block of the output's shape with all its cells there -/
structure Prepared.Shapes (p : Prepared α) (out : Dense α) : Prop where
  rows : out.rows = p.rows
  cols : out.cols = p.cols
  sized : out.Sized

namespace Fused

variable {op : Fused α} {inputs : List (Block α)} {scalars : List α} {p : Prepared α} {out : Dense α}

/-! ## Serial runs -/

/-- an output is opened in the shape of the operator, whatever the caller hands in -/
theorem shapes_openOutput {incremental : Bool} (h : incremental = true → out.Sized) :
    p.Shapes (openOutput p incremental out) := by
  unfold openOutput
  by_cases hfresh : (!incremental || out.rows ≠ p.rows || out.cols ≠ p.cols) = true
  · rw [if_pos hfresh]
    exact ⟨rfl, rfl, Dense.sized_zeros p.rows p.cols⟩
  · rw [if_neg hfresh]
    obtain ⟨⟨hincremental, hrows⟩, hcols⟩ : (incremental = true ∧ out.rows = p.rows) ∧ out.cols = p.cols := by
      simpa using hfresh
    have hsized : out.Sized := h hincremental
    split_ifs with hflip
    · exact ⟨hrows, hcols, hsized.transpose.tallied_swapDims.sized⟩
    · exact ⟨hrows, hcols, hsized⟩

/-- a run over an output changes the values of its cells, and neither their number nor the shape -/
theorem runOver_ok {scratch : Scratch α} {reg : Register α} (h : op.runOver p out scratch = .ok () reg) :
    ∃ vs : Array α, vs.size = out.values.size ∧ reg.out = ⟨out.rows, out.cols, vs, out.nnz⟩ := by
  obtain ⟨rows, cols, values, nnz⟩ := out
  unfold runOver at h
  cases hrun : op.runRows p ⟨0, p.main.rows⟩ 0 (⟨values.toVector, scratch⟩ : RowState α values.size) with
  | error e s =>
    simp only [hrun] at h
    cases h
  | ok _ s =>
    simp only [hrun] at h
    cases h
    exact ⟨s.out.toArray, s.out.size_toArray, rfl⟩

/-- turning an output over that was laid out transposed leaves it in the shape of the operator -/
theorem shapes_turned (h : p.Shapes out) : p.Shapes (if p.flip then out.swapDims.transpose else out) := by
  split_ifs with hflip
  · exact ⟨h.rows, h.cols, h.sized.tallied_swapDims.sized.transpose⟩
  · exact h

theorem shapes_closeOutput (h : p.Shapes out) (incremental : Bool) : p.Shapes (closeOutput p incremental out) := by
  have hturned := shapes_turned h
  unfold closeOutput
  cases incremental with
  | false => exact ⟨hturned.rows, hturned.cols, hturned.sized⟩
  | true => exact ⟨hturned.rows, hturned.cols, hturned.sized⟩

theorem nnz_closeOutput (incremental : Bool) (out : Dense α) :
    (closeOutput p incremental out).nnz =
      if incremental then p.rows * p.cols else countNonZero (closeOutput p incremental out).values := by
  cases incremental with
  | false => rfl
  | true => rfl

/-- **A serial run that succeeds** leaves an output of the operator's shape, counted anew unless it goes on from an
earlier run. -/
theorem runSerial_ok {opts : RunOptions} {reg reg' : Register α} (hreg : opts.incremental = true → reg.out.Sized)
    (h : op.runSerial p opts reg = .ok () reg') :
    p.Shapes reg'.out ∧
      reg'.out.nnz = if opts.incremental then p.rows * p.cols else countNonZero reg'.out.values := by
  obtain ⟨start, own⟩ := reg
  have hopen : p.Shapes (openOutput p opts.incremental start) := shapes_openOutput hreg
  simp only [runSerial] at h
  cases hs : (if opts.useScratch then Except.ok own else op.taskScratch p.env) with
  | error e =>
    simp only [hs] at h
    cases h
  | ok scratch =>
    cases hrun : op.runOver p (openOutput p opts.incremental start) scratch with
    | error e reg₁ =>
      simp only [hs, hrun] at h
      cases h
    | ok _ reg₁ =>
      simp only [hs, hrun] at h
      cases h
      obtain ⟨vs, hsize, hout⟩ := runOver_ok hrun
      have hkept : p.Shapes reg₁.out := by
        rw [hout]
        exact ⟨hopen.rows, hopen.cols, hsize.trans hopen.sized⟩
      exact ⟨shapes_closeOutput hkept opts.incremental, nnz_closeOutput opts.incremental reg₁.out⟩

theorem runFresh_ok (h : op.runFresh p = .ok out) : p.Shapes out ∧ out.nnz = countNonZero out.values := by
  unfold runFresh at h
  cases hrun : op.runSerial p {} ⟨.zeros 0 0, .empty⟩ with
  | error e reg =>
    simp only [hrun] at h
    cases h
  | ok _ reg =>
    simp only [hrun] at h
    cases h
    exact runSerial_ok (fun hincremental => absurd hincremental Bool.false_ne_true) hrun

/-! ## Runs in tasks -/

theorem runTask_ok {t : Task} {part : Array α} (h : op.runTask p t = .ok part) : part.size = t.cells := by
  unfold runTask at h
  cases hs : op.taskScratch p.env with
  | error e =>
    simp only [hs] at h
    cases h
  | ok scratch =>
    cases hrun : op.runRows p t.range t.base (RowState.zeros t.cells scratch) with
    | error e s =>
      simp only [hs, hrun] at h
      cases h
    | ok _ s =>
      simp only [hs, hrun] at h
      cases h
      exact s.out.size_toArray

theorem mergeAccumulators_ok (parts : List (Array α)) :
    p.Shapes (mergeAccumulators p parts) ∧
      (mergeAccumulators p parts).nnz = countNonZero (mergeAccumulators p parts).values := by
  unfold mergeAccumulators
  simp only
  set sums : Vector α (p.rows * p.cols) := parts.foldl (fun c part => (Write.add part 0).apply c)
    ⟨Cell.zeros (p.rows * p.cols), by simp⟩
  have hsums : p.Shapes ⟨p.rows, p.cols, sums.toArray, 0⟩ := ⟨rfl, rfl, sums.size_toArray⟩
  have hturned := shapes_turned hsums
  exact ⟨⟨hturned.rows, hturned.cols, hturned.sized⟩, rfl⟩

/-- slices laid end to end have the cells of all of them, and the counts of the slices add up -/
theorem joinSlices_ok {parts : List (Array α)} (hsize : total (parts.map Array.size) = p.rows * p.cols) :
    p.Shapes (joinSlices p parts) ∧ (joinSlices p parts).nnz = countNonZero (joinSlices p parts).values := by
  obtain ⟨slices, rfl⟩ : ∃ slices : List (List α), parts = slices.map List.toArray :=
    ⟨parts.map Array.toList, by simp [Function.comp_def]⟩
  have hlength : slices.flatten.length = p.rows * p.cols := by
    rw [← hsize, ← total_map_length, List.map_map]
    rfl
  have hvalues : (slices.map List.toArray).foldl (· ++ ·) #[] = slices.flatten.toArray := by
    rw [foldl_append_slices, Array.empty_append]
  unfold joinSlices
  rw [hvalues, total_countNonZero]
  exact ⟨⟨rfl, rfl, hlength⟩, rfl⟩

theorem sizes_of_tasks {tasks : List Task} {parts : List (Array α)}
    (h : List.Forall₂ (fun t part => op.runTask p t = .ok part) tasks parts) :
    parts.map Array.size = tasks.map Task.cells := by
  induction h with
  | nil => rfl
  | cons hpart _ ih => rw [List.map_cons, List.map_cons, runTask_ok hpart, ih]

/-- **A run in tasks that succeeds** returns a block of the operator's shape with an exact count: the ranges tile the
rows, so the slices of their tasks make up the output, and accumulators are counted once they are merged. -/
theorem runTasks_ok {k : Nat} (hp : op.prepare inputs scalars = .ok p) (hf : op.fallsBack p inputs k = false)
    (h : op.runTasks p k = .ok out) : p.Shapes out ∧ out.nnz = countNonZero out.values := by
  obtain ⟨ranges, htiles, htasks⟩ := exists_tasks hf
  unfold runTasks at h
  simp only [htasks] at h
  cases hrun : (TaskGroup.ofCount k).run (ranges.map (op.taskOf p)) fun _ t => op.runTask p t with
  | error e => simp [hrun, bind, Except.bind] at h
  | ok parts =>
    simp only [hrun, bind, Except.bind, pure, Except.pure, Except.ok.injEq] at h
    subst h
    cases hw : op.rowType.aggregates with
    | true =>
      rw [if_pos rfl]
      exact mergeAccumulators_ok parts
    | false =>
      rw [if_neg Bool.false_ne_true]
      have hrowWise : op.rowType.writesRows = true := by
        rw [RowType.writesRows_eq, hw, Bool.not_false]
      obtain ⟨hrows, -⟩ := prepare_writesRows hp hrowWise
      have hcells : parts.map Array.size = ranges.map fun r => r.size * p.cols := by
        rw [sizes_of_tasks (TaskGroup.ok_of_run _ (op.runTask p) hrun), List.map_map]
        exact List.map_congr_left fun r _ => congrArg Task.cells (taskOf_of_writesRows hrowWise r)
      refine joinSlices_ok ?_
      rw [hcells, htiles.total_slices, Nat.sub_zero, hrows]

/-! ## All runs -/

/-- **What a run returns.** For any operator, any inputs and any kernel: whenever a serial run or a parallel one
succeeds, with any number of tasks and any settings, the block has the dimensions that the operator states for the
inputs, as many cells as these make, and a count of exactly those that are not zero, whether or not it was laid out
transposed on the way. A run in a register leaves such a block there whenever it succeeds, with the vectors of the
register or its own; if it goes on from the output that it finds, then the number of all cells stands for the count,
which is no less. -/
theorem outputs_counted (op : Fused α) (inputs : List (Block α)) (scalars : List α) :
    (∀ out, (op.execute inputs scalars = .ok out ∨ ∃ k, op.executeParallel inputs scalars k = .ok out) →
      op.outputShape inputs = .ok (out.rows, out.cols) ∧ out.values.size = out.rows * out.cols ∧
        out.nnz = countNonZero out.values) ∧
    ∀ opts reg reg', (opts.incremental = true → reg.out.Sized) →
      op.executeInto inputs scalars opts reg = .ok () reg' →
      op.outputShape inputs = .ok (reg'.out.rows, reg'.out.cols) ∧
        reg'.out.values.size = reg'.out.rows * reg'.out.cols ∧
        reg'.out.nnz =
          (if opts.incremental then reg'.out.rows * reg'.out.cols else countNonZero reg'.out.values) ∧
        countNonZero reg'.out.values ≤ reg'.out.nnz := by
  cases hp : op.prepare inputs scalars with
  | error e =>
    constructor
    · rintro out (h | ⟨k, h⟩)
      · simp [execute, hp] at h
      · simp [executeParallel, hp] at h
    · intro opts reg reg' _ h
      simp [executeInto, hp] at h
  | ok p =>
    obtain ⟨-, -, hshape, -⟩ := prepare_ok hp
    constructor
    · intro out h
      have hout : p.Shapes out ∧ out.nnz = countNonZero out.values := by
        rcases h with h | ⟨k, h⟩
        · rw [execute_eq hp] at h
          exact runFresh_ok h
        · rw [executeParallel_eq hp] at h
          split_ifs at h with hf
          · exact runFresh_ok h
          · exact runTasks_ok hp (Bool.eq_false_iff.2 hf) h
      obtain ⟨⟨hrows, hcols, hsized⟩, hcount⟩ := hout
      rw [← hrows, ← hcols] at hshape
      exact ⟨hshape, hsized, hcount⟩
    · intro opts reg reg' hreg h
      rw [executeInto_eq hp] at h
      obtain ⟨⟨hrows, hcols, hsized⟩, hcount⟩ := runSerial_ok hreg h
      rw [← hrows, ← hcols] at hshape hcount
      refine ⟨hshape, hsized, hcount, ?_⟩
      have hle : countNonZero reg'.out.values ≤ reg'.out.values.size := Array.countP_le_size
      rw [hcount]
      split_ifs
      · exact hle.trans hsized.le
      · exact le_rfl

end Fused

/-- three rows whose columns cancel, one of them empty -/
def cancelling : Block Int := .dense ⟨3, 2, #[1, 2, 0, 0, -1, 3], 4⟩

/-- row sums in two tasks -/
def rowSumsInTasks : Fused Int := ⟨.rowAgg, .rowSum, none, false, 0, { parallelCells := 0, maxTasks := 2 }⟩

/-- the sums of two rows of 65 cells, spread over one column that the kernel finds as a row -/
def turnedSums : Prepared Int := ⟨.dense tallRows, ⟨[.dense sideColumn], [], 65, some 1⟩, 65, 1, true⟩

/-- the sums of the rows are counted slice by slice and those of the columns after a merge, two of three and one of two;
a second run over the output of the first, which is laid out transposed, states all cells where three are not zero -/
theorem sums_that_cancel_are_counted :
    (∃ out, rowSumsInTasks.executeParallel [cancelling] [] 2 = .ok out ∧ out.values = #[3, 0, 2] ∧ out.nnz = 2) ∧
    (∃ out, columnSums.executeParallel [cancelling] [10] 2 = .ok out ∧ out.values = #[0, 50] ∧ out.nnz = 1) ∧
    ∃ reg₁ reg₂,
      spreadSums.executeInto [.dense tallRows, .dense sideColumn] [] {} ⟨.zeros 0 0, .empty⟩ = .ok () reg₁ ∧
      spreadSums.executeInto [.dense tallRows, .dense sideColumn] [] { incremental := true } reg₁ = .ok () reg₂ ∧
      reg₁.out.nnz = countNonZero reg₁.out.values ∧ reg₂.out.nnz = 65 ∧ countNonZero reg₂.out.values = 3 := by
  refine ⟨?_, ?_, ?_⟩
  · obtain ⟨out, hout, hvalues⟩ : ∃ out, rowSumsInTasks.executeParallel [cancelling] [] 2 = .ok out ∧
        out.values = #[3, 0, 2] := ⟨_, rfl, by decide +kernel⟩
    obtain ⟨-, -, hcount⟩ := (Fused.outputs_counted rowSumsInTasks [cancelling] []).1 out (.inr ⟨2, hout⟩)
    exact ⟨out, hout, hvalues, by rw [hcount, hvalues]; rfl⟩
  · obtain ⟨out, hout, hvalues⟩ : ∃ out, columnSums.executeParallel [cancelling] [10] 2 = .ok out ∧
        out.values = #[0, 50] := ⟨_, rfl, by decide +kernel⟩
    obtain ⟨-, -, hcount⟩ := (Fused.outputs_counted columnSums [cancelling] [10]).1 out (.inr ⟨2, hout⟩)
    exact ⟨out, hout, hvalues, by rw [hcount, hvalues]; rfl⟩
  · -- both runs succeed since the kernel folds the rows over the output, whatever it holds
    have hp : spreadSums.prepare [.dense tallRows, .dense sideColumn] [] = .ok turnedSums := rfl
    have hw : spreadSums.rowType.aggregates = true := rfl
    have ha : spreadSums.taskScratch turnedSums.env = .ok .empty := rfl
    obtain ⟨vs, reg₁, reg₂, hrun₁, hrun₂, hout, hfold⟩ := Fused.runSerial_twice hw ha false false ⟨.zeros 0 0, .empty⟩
      (fun _ _ => Kernel.constSpread_folds (by decide)) (fun _ hv => hv) fun _ hv => hv
    have h₁ := (Fused.executeInto_eq hp {} _).trans hrun₁
    have h₂ := (Fused.executeInto_eq hp { incremental := true } _).trans hrun₂
    obtain ⟨-, hsized, hcount₁, -⟩ := (Fused.outputs_counted spreadSums [.dense tallRows, .dense sideColumn] []).2
      {} ⟨.zeros 0 0, .empty⟩ reg₁ (fun h => absurd h Bool.false_ne_true) h₁
    obtain ⟨hshape, -, hcount₂, -⟩ := (Fused.outputs_counted spreadSums [.dense tallRows, .dense sideColumn] []).2
      { incremental := true } reg₁ reg₂ (fun _ => hsized) h₂
    have hdims : (65, 1) = (reg₂.out.rows, reg₂.out.cols) := Except.ok.inj hshape
    obtain ⟨hrows, hcols⟩ := Prod.mk.inj hdims
    have hcells : vs.size = 65 ∧ countNonZero vs = 3 := by
      rw [← Array.length_toList, countNonZero, ← Array.countP_toList, hfold]
      decide +kernel
    have hturned : (Dense.swapDims ⟨65, 1, vs, 0⟩).Sized := hcells.1
    refine ⟨reg₁, reg₂, h₁, h₂, hcount₁, ?_, ?_⟩
    · rw [hcount₂, if_pos rfl, ← hrows, ← hcols]
    · rw [hout]
      exact hturned.countNonZero_transpose.trans hcells.2

end MatrixEngine
