/-
Serial runs and task runs of a row-wise operator as one thing: the kernel run over a list of visits on output cells
that are zero to begin with (`Fused.fresh`).

A serial run is a fresh run over all rows (`runFresh_eq`), and makes the calls that are listed for it and no others
(`execute_schedule`). A task of a parallel run is a fresh run over its range (`runTask_eq`), and a task group returns
the results of its tasks or the fault of the first task that has one (`run_of_ok`, `run_of_fault`). What a kernel may
find in its scratch vectors is what earlier calls left there (`Kernel.Lends`). Where all rows aggregate into the same
cells, a run is a fold of what each row does to them (`runVisits_turns`).
-/
import MatrixEngine.Proofs.Rowwise.Ranges
import MatrixEngine.Proofs.Rowwise.Visits
import MatrixEngine.Proofs.Sequence
import MatrixEngine.Rowwise.Fused

namespace MatrixEngine

variable {α : Type}

/-- the scratch vectors a call can meet: those acquired for the run, and what calls for the given visits make of them -/
inductive Kernel.Lends (k : Kernel α) (env : KernelEnv α) (visits : List (Visit α)) (acquired : Scratch α) :
    Scratch α → Prop
  | acquired : Lends k env visits acquired acquired
  | call {cells : Nat} {s s' : RowState α cells} {v : Visit α} {ci : Nat} :
      Lends k env visits acquired s.scratch → v ∈ visits → k.step env v ci s = .ok () s' →
      Lends k env visits acquired s'.scratch

/-! ## Row types -/

namespace RowType

theorem writesRows_eq (t : RowType) : t.writesRows = !t.aggregates := by
  cases t <;> decide

theorem writesRows_of_aggregates {t : RowType} (h : t.aggregates = true) : t.writesRows = false := by
  rw [writesRows_eq, h, Bool.not_true]

theorem aggregates_of_writesRows {t : RowType} (h : t.writesRows = true) : t.aggregates = false := by
  simpa [writesRows_eq] using h

theorem isOuterB1_of_writesRows {t : RowType} (h : t.writesRows = true) : t.isOuterB1 = false := by
  revert h
  cases t <;> decide

theorem aggregates_of_isOuterB1 {t : RowType} (h : t.isOuterB1 = true) : t.aggregates = true := by
  revert h
  cases t <;> decide

theorem outputShape_of_aggregates {t : RowType} (h : t.aggregates = true) (m m' n : Nat) (n2 constDim2 : Option Nat) :
    t.outputShape m n n2 constDim2 = t.outputShape m' n n2 constDim2 := by
  cases t <;> first | rfl | exact absurd h (by decide)

end RowType

/-! ## Prepared inputs -/

namespace Fused

variable [Cell α] {op : Fused α} {inputs : List (Block α)} {scalars : List α} {p : Prepared α}

theorem prepare_ok (h : op.prepare inputs scalars = .ok p) :
    ∃ rest, inputs = p.main :: rest ∧ op.outputShape inputs = .ok (p.rows, p.cols) ∧
      p.flip = (op.rowType.isOuterB1 && Write.flipsOuter p.rows p.cols) := by
  cases inputs with
  | nil => cases h
  | cons a rest =>
    cases hs : op.outputShape (a :: rest) with
    | error e => simp [prepare, hs, bind, Except.bind] at h
    | ok shape =>
      simp only [prepare, hs, bind, Except.bind, pure, Except.pure, Except.ok.injEq] at h
      subst h
      exact ⟨rest, rfl, rfl, rfl⟩

/-- preparation looks at the columns of the primary input and at the output shape only -/
theorem prepare_of_shape {a b : Block α} {rest : List (Block α)} (hcols : b.cols = a.cols)
    (hshape : op.outputShape (b :: rest) = op.outputShape (a :: rest)) :
    op.prepare (b :: rest) scalars = (op.prepare (a :: rest) scalars).map fun p => { p with main := b } := by
  have hdim : op.secondDim (b :: rest) = op.secondDim (a :: rest) := rfl
  simp only [prepare, hshape]
  cases op.outputShape (a :: rest) with
  | error e => rfl
  | ok shape => simp [bind, Except.bind, pure, Except.pure, Except.map, hdim, hcols, SideInput.ofInputs]

theorem prepare_congr {a b : Block α} (hrows : b.rows = a.rows) (hcols : b.cols = a.cols) (rest : List (Block α)) :
    op.prepare (b :: rest) scalars = (op.prepare (a :: rest) scalars).map fun p => { p with main := b } := by
  refine prepare_of_shape hcols ?_
  have hdim : op.secondDim (b :: rest) = op.secondDim (a :: rest) := rfl
  simp only [outputShape, hdim, hrows, hcols]

theorem prepare_aggregates (hw : op.rowType.aggregates = true) {a b : Block α} (hcols : b.cols = a.cols)
    (rest : List (Block α)) :
    op.prepare (b :: rest) scalars = (op.prepare (a :: rest) scalars).map fun p => { p with main := b } := by
  refine prepare_of_shape hcols ?_
  have hdim : op.secondDim (b :: rest) = op.secondDim (a :: rest) := rfl
  simp only [outputShape, hdim, hcols, RowType.outputShape_of_aggregates hw b.rows a.rows]

/-- a type that writes rows has an output row for every input row, and leaves the output as it lies -/
theorem prepare_writesRows (h : op.prepare inputs scalars = .ok p) (hw : op.rowType.writesRows = true) :
    p.rows = p.main.rows ∧ p.flip = false := by
  obtain ⟨rest, rfl, hshape, hflip⟩ := prepare_ok h
  have hrows : ∀ shape, op.rowType.outputShape p.main.rows p.main.cols (op.secondDim (p.main :: rest)) op.constDim2 =
      some shape → shape.1 = p.main.rows := by
    intro shape hs
    cases ht : op.rowType <;> simp only [ht, RowType.writesRows, Bool.false_eq_true] at hw <;>
      simp only [ht, RowType.outputShape, Option.map_eq_some_iff, Option.some.injEq] at hs
    · rw [← hs]
    · obtain ⟨n, -, rfl⟩ := hs; rfl
    · obtain ⟨n, -, rfl⟩ := hs; rfl
    · rw [← hs]
  constructor
  · unfold outputShape at hshape
    simp only at hshape
    split at hshape
    · rename_i shape hs
      have hpair := Except.ok.inj hshape
      rw [hpair] at hs
      exact hrows _ hs
    · cases hshape
  · have : op.rowType.isOuterB1 = false := RowType.isOuterB1_of_writesRows hw
    rw [hflip, this, Bool.false_and]

/-! ## Fresh runs -/

/-- run the kernel over visits, each at its offset -/
def runVisits (op : Fused α) (p : Prepared α) (base : Nat) (visits : List (Visit α)) {cells : Nat} :
    RowM α cells Unit :=
  visits.forM fun v => op.kernel.step p.env v (op.offset p.cols base v.row)

/-- the output cells after a run over visits with zeros to begin with, or why the run stops -/
def fresh (op : Fused α) (p : Prepared α) (arena : Scratch α) (base cells : Nat) (visits : List (Visit α)) :
    Except (Stop KernelError) (List α) :=
  match op.runVisits p base visits (RowState.zeros cells arena) with
  | .ok () s => .ok s.out.toList
  | .error e _ => .error e

omit [Cell α] in
@[simp] theorem runVisits_nil (base : Nat) {cells : Nat} (s : RowState α cells) :
    op.runVisits p base [] s = .ok () s := rfl

omit [Cell α] in
theorem runVisits_cons (base : Nat) (v : Visit α) (visits : List (Visit α)) {cells : Nat} (s : RowState α cells) :
    op.runVisits p base (v :: visits) s =
      match op.kernel.step p.env v (op.offset p.cols base v.row) s with
      | .ok () s' => op.runVisits p base visits s'
      | .error e s' => .error e s' := by
  change EStateM.bind (op.kernel.step p.env v _) (fun _ => op.runVisits p base visits) s = _
  unfold EStateM.bind
  split <;> rename_i hs <;> simp only [hs]

theorem runRows_eq (range : RowRange) (base : Nat) {cells : Nat} (s : RowState α cells) :
    op.runRows p range base s = op.runVisits p base (p.main.visits range) s := rfl

/-- the calls listed for a task are the calls that a run over its rows makes, in their order -/
theorem runRows_calls (t : Task) {cells : Nat} (s : RowState α cells) :
    op.runRows p t.range t.base s = (op.calls p t).forM (fun c => op.kernel.step p.env c.visit c.offset) s := by
  unfold runRows calls
  rw [List.forM_eq_forM, List.forM_eq_forM, List.forM_map]

theorem runTask_eq {arena : Scratch α} (ha : op.taskScratch p.env = .ok arena) (t : Task) :
    op.runTask p t = (op.fresh p arena t.base t.cells (p.main.visits t.range)).map List.toArray := by
  unfold runTask fresh
  simp only [ha, runRows_eq]
  split <;> rename_i hs <;> simp [hs, Except.map, Vector.toList]

theorem fresh_of_size (arena : Scratch α) (base : Nat) (visits : List (Visit α)) {n m : Nat}
    (h : (Cell.zeros n : Array α).size = m) :
    (match op.runVisits p base visits (⟨⟨Cell.zeros n, h⟩, arena⟩ : RowState α m) with
      | .ok () s => Except.ok s.out.toList
      | .error e _ => Except.error e) = op.fresh p arena base n visits := by
  have hm : n = m := by simpa using h
  subst hm
  rfl

theorem runFresh_eq {arena : Scratch α} (ha : op.taskScratch p.env = .ok arena) :
    op.runFresh p =
      match op.fresh p arena 0 (p.rows * p.cols) (p.main.visits ⟨0, p.main.rows⟩) with
      | .ok vs => .ok (closeOutput p false ⟨p.rows, p.cols, vs.toArray, 0⟩)
      | .error e => .error (liftStop e) := by
  have hopen : openOutput p false (Dense.zeros 0 0) = Dense.zeros p.rows p.cols := by simp [openOutput]
  rw [← fresh_of_size arena 0 (p.main.visits ⟨0, p.main.rows⟩) rfl]
  unfold runFresh runSerial
  simp only [hopen, ha, Bool.false_eq_true, if_false]
  unfold Dense.zeros runOver
  simp only [runRows_eq, Array.toVector]
  cases op.runVisits p 0 (p.main.visits ⟨0, p.main.rows⟩)
    (⟨⟨Cell.zeros (p.rows * p.cols), rfl⟩, arena⟩ : RowState α (Cell.zeros (p.rows * p.cols) : Array α).size) with
  | ok _ s => simp [Vector.toList]
  | error e s => rfl

/-- a serial run without scratch vectors to lend stops at once -/
theorem runFresh_refused {e : MemoryError} (ha : op.taskScratch p.env = .error e) :
    op.runFresh p = .error (.fault (.memory e)) := by
  unfold runFresh runSerial
  simp only [ha, Bool.false_eq_true, if_false]

theorem execute_eq (h : op.prepare inputs scalars = .ok p) : op.execute inputs scalars = op.runFresh p := by
  unfold execute
  simp only [h]

theorem executeInto_eq (h : op.prepare inputs scalars = .ok p) (opts : RunOptions) (reg : Register α) :
    op.executeInto inputs scalars opts reg = op.runSerial p opts reg := by
  unfold executeInto
  simp only [h]

/-- what a serial run makes of where its calls end -/
def closing (p : Prepared α) {cells : Nat} :
    EStateM.Result (Stop KernelError) (RowState α cells) Unit → Except (Stop RunError) (Dense α)
  | .ok () s => .ok (closeOutput p false ⟨p.rows, p.cols, s.out.toArray, 0⟩)
  | .error e _ => .error (liftStop e)

/-- the block that calls of the kernel, one after the other, make of output cells that are zero, or why they stop -/
def replay (op : Fused α) (p : Prepared α) (calls : List (Call α)) : Except (Stop RunError) (Dense α) :=
  match op.taskScratch p.env with
  | .error e => .error (.fault (.memory e))
  | .ok arena => closing p <| calls.forM (fun c => op.kernel.step p.env c.visit c.offset)
      (RowState.zeros (p.rows * p.cols) arena)

theorem runFresh_replay : op.runFresh p = op.replay p (op.calls p (serialTask p)) := by
  unfold replay
  cases ha : op.taskScratch p.env with
  | error e => exact runFresh_refused ha
  | ok arena =>
    have hcalls : ∀ s : RowState α (p.rows * p.cols),
        (op.calls p (serialTask p)).forM (fun c => op.kernel.step p.env c.visit c.offset) s =
          op.runVisits p 0 (p.main.visits ⟨0, p.main.rows⟩) s := fun s => (runRows_calls (serialTask p) s).symm
    rw [runFresh_eq ha, fresh]
    simp only [hcalls]
    cases op.runVisits p 0 (p.main.visits ⟨0, p.main.rows⟩)
      (RowState.zeros (p.rows * p.cols) arena) <;> rfl

/-- **A serial run makes the calls that are listed for it**, in their order, and no others. -/
theorem execute_schedule (h : op.prepare inputs scalars = .ok p) :
    op.execute inputs scalars = op.replay p (op.schedule inputs scalars none) := by
  have hschedule : op.schedule inputs scalars none = op.calls p (serialTask p) := by
    unfold schedule
    simp only [h]
  rw [execute_eq h, runFresh_replay, hschedule]

theorem executeParallel_eq (h : op.prepare inputs scalars = .ok p) (k : Nat) :
    op.executeParallel inputs scalars k =
      if op.fallsBack p inputs (op.grantedTasks k) then op.runFresh p else op.runTasks p (op.grantedTasks k) := by
  unfold executeParallel
  simp only [h]

/-- what does not fall back has its tasks: one per range of a tiling of all rows -/
theorem exists_tasks {k : Nat} (h : op.fallsBack p inputs k = false) :
    ∃ ranges, Partition.Tiles 0 p.main.rows ranges ∧ op.parallelTasks p k = some (ranges.map (op.taskOf p)) := by
  have hk : 0 < k := by
    simp only [fallsBack, Bool.or_eq_false_iff, decide_eq_false_iff_not] at h
    omega
  obtain ⟨ranges, hr⟩ := Partition.exists_plan p.main hk op.config
  exact ⟨ranges, Partition.tiles_plan hr, by simp [parallelTasks, hr]⟩

omit [Cell α] in
/-- where rows are written, the task of a range has a slice for each of its rows -/
theorem taskOf_of_writesRows (hw : op.rowType.writesRows = true) (r : RowRange) :
    op.taskOf p r = ⟨r, r.start, r.size * p.cols⟩ := by
  rw [taskOf, RowType.aggregates_of_writesRows hw, if_neg Bool.false_ne_true]

end Fused

/-! ## Runs of types that aggregate -/

/-- a call for `v` at the first cell succeeds and turns the output cells into `rule v` of them, whatever calls for the
visits left in the scratch vectors -/
def Kernel.Turns (k : Kernel α) (env : KernelEnv α) (visits : List (Visit α)) (arena : Scratch α) (cells : Nat)
    (rule : Visit α → List α → List α) : Prop :=
  ∀ v ∈ visits, ∀ s : RowState α cells, k.Lends env visits arena s.scratch →
    ∃ s', k.step env v 0 s = .ok () s' ∧ s'.out.toList = rule v s.out.toList

namespace Fused

variable {op : Fused α} {p : Prepared α} {arena : Scratch α} {visits : List (Visit α)}
  {rule : Visit α → List α → List α}

theorem offset_aggregates (hw : op.rowType.aggregates = true) (cols base row : Nat) :
    op.offset cols base row = 0 := by
  simp [offset, RowType.writesRows_of_aggregates hw]

/-- **A run over visits is a fold of their rules** over the output cells. -/
theorem runVisits_turns (hw : op.rowType.aggregates = true) {cells : Nat}
    (hk : op.kernel.Turns p.env visits arena cells rule) (base : Nat) {vs : List (Visit α)}
    (hv : ∀ v ∈ vs, v ∈ visits) (s : RowState α cells) (hl : op.kernel.Lends p.env visits arena s.scratch) :
    ∃ s', op.runVisits p base vs s = .ok () s' ∧ s'.out.toList = vs.foldl (fun out v => rule v out) s.out.toList ∧
      op.kernel.Lends p.env visits arena s'.scratch := by
  induction vs generalizing s with
  | nil => exact ⟨s, rfl, rfl, hl⟩
  | cons v vs ih =>
    have hmem := hv v List.mem_cons_self
    obtain ⟨s', hstep, hout⟩ := hk v hmem s hl
    obtain ⟨s'', hrun, hout', hl''⟩ := ih (fun u hu => hv u (List.mem_cons_of_mem v hu)) s' (.call hl hmem hstep)
    refine ⟨s'', ?_, ?_, hl''⟩
    · rw [runVisits_cons, offset_aggregates hw, hstep]
      exact hrun
    · rw [hout', hout, List.foldl_cons]

end Fused

/-! ## Task groups -/

namespace TaskGroup

variable {ι β : Type}

theorem collect_of_ok (f : ι → Outcome β) {items : List ι} {bs : List β}
    (h : List.Forall₂ (fun t b => f t = .ok b) items bs) (index : Nat) : collect index (items.map f) = .ok bs := by
  induction h generalizing index with
  | nil => rfl
  | cons hb _ ih => simp only [List.map_cons, hb, collect, ih, Except.map]

theorem collect_of_fault (f : ι → Outcome β) {before after : List ι} {t : ι} {e : KernelError}
    (hok : ∀ u ∈ before, ∃ b, f u = .ok b) (ht : f t = .error (.fault e)) (index : Nat) :
    ∃ task, collect index ((before ++ t :: after).map f) = .error (.fault (.task task e)) := by
  induction before generalizing index with
  | nil => exact ⟨index, by simp only [List.nil_append, List.map_cons, ht, collect]⟩
  | cons u before ih =>
    obtain ⟨b, hb⟩ := hok u List.mem_cons_self
    obtain ⟨task, htask⟩ := ih (fun x hx => hok x (List.mem_cons_of_mem u hx)) (index + 1)
    exact ⟨task, by simp only [List.cons_append, List.map_cons, hb, collect, htask, Except.map]⟩

theorem run_eq_collect (g : TaskGroup) (f : ι → Outcome β) (items : List ι) :
    g.run items (fun _ t => f t) =
      if (items.map f).any crashed then .error .outOfBounds else collect 0 (items.map f) := by
  have hmap : (items.zipIdx.map fun t => f t.1) = items.map f := by
    conv_rhs => rw [← List.zipIdx_map_fst 0 items, List.map_map]
    rfl
  rw [← hmap]
  rfl

theorem run_eq (g : TaskGroup) (f : ι → Outcome β) {items : List ι} (hcut : ∀ t ∈ items, f t ≠ .error .outOfBounds) :
    g.run items (fun _ t => f t) = collect 0 (items.map f) := by
  have hnone : (items.map f).any crashed = false := by
    rw [List.any_eq_false]
    intro o ho hc
    obtain ⟨t, ht, rfl⟩ := List.mem_map.1 ho
    refine hcut t ht ?_
    rcases hf : f t with (e | _) | b <;> simp_all [crashed]
  rw [run_eq_collect, hnone, if_neg Bool.false_ne_true]

/-- **A group returns the results of its tasks in order** if every task has one. -/
theorem run_of_ok (g : TaskGroup) (f : ι → Outcome β) {items : List ι} {bs : List β} (h : items.mapM f = .ok bs) :
    g.run items (fun _ t => f t) = .ok bs := by
  rw [run_eq g f ?_, collect_of_ok f (Sequence.mapM_ok_iff.1 h)]
  intro t ht hcut
  obtain ⟨b, hb⟩ := Sequence.exists_of_mapM_ok h ht
  rw [hcut] at hb
  cases hb

theorem ok_of_collect (f : ι → Outcome β) {items : List ι} {bs : List β} {index : Nat}
    (h : collect index (items.map f) = .ok bs) : List.Forall₂ (fun t b => f t = .ok b) items bs := by
  induction items generalizing bs index with
  | nil =>
    obtain rfl := Except.ok.inj h
    exact .nil
  | cons t items ih =>
    cases ht : f t with
    | error e => cases e <;> simp [ht, collect] at h
    | ok b =>
      cases hrest : collect (index + 1) (items.map f) with
      | error e => simp [ht, collect, hrest, Except.map] at h
      | ok rest =>
        simp only [List.map_cons, ht, collect, hrest, Except.map, Except.ok.injEq] at h
        subst h
        exact .cons ht (ih hrest)

theorem ok_of_run (g : TaskGroup) (f : ι → Outcome β) {items : List ι} {bs : List β}
    (h : g.run items (fun _ t => f t) = .ok bs) : List.Forall₂ (fun t b => f t = .ok b) items bs := by
  rw [run_eq_collect] at h
  split_ifs at h
  exact ok_of_collect f h

/-- **A group returns the fault of the first task that has one**, if no task was cut off. -/
theorem run_of_fault (g : TaskGroup) (f : ι → Outcome β) {items : List ι} {e : KernelError}
    (hcut : ∀ t ∈ items, f t ≠ .error .outOfBounds) (h : items.mapM f = .error (.fault e)) :
    ∃ task, g.run items (fun _ t => f t) = .error (.fault (.task task e)) := by
  obtain ⟨before, t, after, rfl, hok, ht⟩ := Sequence.mapM_error_iff.1 h
  rw [run_eq g f hcut]
  exact collect_of_fault f hok ht 0

end TaskGroup

end MatrixEngine
