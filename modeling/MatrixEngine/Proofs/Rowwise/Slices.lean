/-
Row types that write rows: a parallel run is the serial run.

Each row owns a slice of `cols` output cells. A kernel is local to its rows (`Kernel.RowLocal`) if a call changes only
the slice at its offset, by a rule that sees the old contents of the slice but neither the offset nor the other cells
nor what the scratch vectors hold. Such a kernel does the same to a row in the serial buffer and in the buffer of a
task, where the offset counts from the first row of the range.
- `fresh_slices`: a run over consecutive rows is the sequence of its rows run alone, their cells end to end.
- `executeParallel_iff_execute`: for every block, number of tasks and settings, a parallel run has the block of the
  serial run, and where a row fails both report the fault of the first such row.
-/
import MatrixEngine.Proofs.Number.Sums
import MatrixEngine.Proofs.Rowwise.Runs
import MatrixEngine.Proofs.Rowwise.Writes
import MatrixEngine.Rowwise.Kernels.Probe

namespace MatrixEngine

open Cell

variable {α : Type} [Cell α]

/-- a call for `v` changes only the `cols` cells at its offset: `rule` turns their old contents into the new ones or
into a fault, wherever the slice lies, whatever the other cells are and whatever calls for the visits left in the
scratch vectors -/
def Kernel.FollowsRule (k : Kernel α) (env : KernelEnv α) (visits : List (Visit α)) (arena : Scratch α) (cols : Nat)
    (v : Visit α) (rule : List α → Except KernelError (List α)) : Prop :=
  ∀ {cells : Nat} (s : RowState α cells) (before old after : List α),
    s.out.toList = before ++ old ++ after → old.length = cols → k.Lends env visits arena s.scratch →
    match rule old with
    | .ok new => ∃ s', k.step env v before.length s = .ok () s' ∧ s'.out.toList = before ++ new ++ after
    | .error e => ∃ s', k.step env v before.length s = .error (.fault e) s'

/-- every visit has a rule, which depends on the visit and on what the whole run shares -/
def Kernel.RowLocal (k : Kernel α) (env : KernelEnv α) (visits : List (Visit α)) (arena : Scratch α) (cols : Nat) :
    Prop :=
  ∀ v ∈ visits, ∃ rule, k.FollowsRule env visits arena cols v rule

namespace Fused

variable {op : Fused α} {inputs : List (Block α)} {scalars : List α} {p : Prepared α} {arena : Scratch α}
  {visits : List (Visit α)}

/-- a row run alone, on a zero slice of its own -/
def rowAlone (op : Fused α) (p : Prepared α) (arena : Scratch α) (v : Visit α) : Except (Stop KernelError) (List α) :=
  op.fresh p arena v.row p.cols [v]

/-- the block of the given slices end to end -/
def assembled (p : Prepared α) (slices : List (List α)) : Dense α :=
  ⟨p.rows, p.cols, slices.flatten.toArray, countNonZero slices.flatten.toArray⟩

/-! ## One row -/

theorem rowAlone_eq (hw : op.rowType.writesRows = true) {v : Visit α} {rule : List α → Except KernelError (List α)}
    (hrule : op.kernel.FollowsRule p.env visits arena p.cols v rule) :
    op.rowAlone p arena v =
      match rule (List.replicate p.cols zero) with
      | .ok new => .ok new
      | .error e => .error (.fault e) := by
  have hcall := hrule (RowState.zeros p.cols arena) [] (List.replicate p.cols zero) []
    (by simp [Vector.toList, zeros]) (by simp) .acquired
  have hoff : op.offset p.cols v.row v.row = 0 := by simp [offset, hw]
  unfold rowAlone fresh
  rw [runVisits_cons, hoff]
  cases hr : rule (List.replicate p.cols zero) with
  | ok new =>
    rw [hr] at hcall
    obtain ⟨s', hs, hout⟩ := hcall
    simp only [List.length_nil] at hs
    simp only [hs, runVisits_nil, hout, List.nil_append, List.append_nil]
  | error e =>
    rw [hr] at hcall
    obtain ⟨s', hs⟩ := hcall
    simp only [List.length_nil] at hs
    simp only [hs]

/-- a call on a zero slice anywhere does what the row does alone -/
theorem step_of_rowAlone (hw : op.rowType.writesRows = true)
    (hk : op.kernel.RowLocal p.env visits arena p.cols) {v : Visit α} (hv : v ∈ visits) {cells : Nat}
    (s : RowState α cells) (before after : List α)
    (hs : s.out.toList = before ++ List.replicate p.cols zero ++ after)
    (hl : op.kernel.Lends p.env visits arena s.scratch) :
    match op.rowAlone p arena v with
    | .ok new => new.length = p.cols ∧ ∃ s', op.kernel.step p.env v before.length s = .ok () s' ∧
        s'.out.toList = before ++ new ++ after ∧ op.kernel.Lends p.env visits arena s'.scratch
    | .error (.fault e) => ∃ s', op.kernel.step p.env v before.length s = .error (.fault e) s'
    | .error .outOfBounds => False := by
  obtain ⟨rule, hrule⟩ := hk v hv
  have hcall := hrule s before (List.replicate p.cols zero) after hs (by simp) hl
  rw [rowAlone_eq hw hrule]
  cases hr : rule (List.replicate p.cols zero) with
  | error e =>
    rw [hr] at hcall
    exact hcall
  | ok new =>
    rw [hr] at hcall
    obtain ⟨s', hstep, hout⟩ := hcall
    refine ⟨?_, s', hstep, hout, .call hl hv hstep⟩
    have hlen : s.out.toList.length = s'.out.toList.length := by simp
    simp only [hs, hout, List.length_append, List.length_replicate] at hlen
    omega

theorem rowAlone_inBounds (hw : op.rowType.writesRows = true)
    (hk : op.kernel.RowLocal p.env visits arena p.cols) {v : Visit α} (hv : v ∈ visits) :
    op.rowAlone p arena v ≠ .error .outOfBounds := by
  intro h
  have := step_of_rowAlone hw hk hv (RowState.zeros p.cols arena) [] []
    (by simp [Vector.toList, zeros]) .acquired
  rw [h] at this
  exact this

/-! ## Consecutive rows -/

/-- from a buffer in which the rows before `i` are done and the next `n` are zero, a run does these one by one -/
theorem runVisits_slices (hw : op.rowType.writesRows = true)
    (hk : op.kernel.RowLocal p.env visits arena p.cols) {base : Nat} (n : Nat) {i : Nat} (hi : base ≤ i)
    (hv : ∀ j ∈ List.range' i n, p.main.visit j ∈ visits) {cells : Nat} (s : RowState α cells) (done : List α)
    (hdone : done.length = (i - base) * p.cols) (hs : s.out.toList = done ++ List.replicate (n * p.cols) zero)
    (hl : op.kernel.Lends p.env visits arena s.scratch) :
    match ((List.range' i n).map p.main.visit).mapM (op.rowAlone p arena) with
    | .ok slices => ∃ s', op.runVisits p base ((List.range' i n).map p.main.visit) s = .ok () s' ∧
        s'.out.toList = done ++ slices.flatten
    | .error e => ∃ s', op.runVisits p base ((List.range' i n).map p.main.visit) s = .error e s' := by
  induction n generalizing i s done with
  | zero => exact ⟨s, rfl, by simpa using hs⟩
  | succ n ih =>
    have hoff : op.offset p.cols base (p.main.visit i).row = done.length := by simp [offset, hw, hdone]
    have hsplit : s.out.toList = done ++ List.replicate p.cols zero ++ List.replicate (n * p.cols) zero := by
      rw [hs, Nat.succ_mul, Nat.add_comm, List.replicate_add, List.append_assoc]
    have hcall := step_of_rowAlone hw hk (hv i (by simp [List.range'_succ])) s done _ hsplit hl
    rw [List.range'_succ, List.map_cons]
    cases ha : op.rowAlone p arena (p.main.visit i) with
    | error e =>
      rw [ha] at hcall
      rw [Sequence.mapM_cons_error ha]
      cases e with
      | outOfBounds => exact hcall.elim
      | fault e =>
        obtain ⟨s', hstep⟩ := hcall
        exact ⟨s', by rw [runVisits_cons, hoff, hstep]⟩
    | ok new =>
      rw [ha] at hcall
      obtain ⟨hlen, s', hstep, hout, hl'⟩ := hcall
      have hnext := ih (i := i + 1) (by omega)
        (fun j hj => hv j (by rw [List.range'_succ]; exact List.mem_cons_of_mem i hj)) s' (done ++ new)
        (by rw [List.length_append, hdone, hlen, ← Nat.succ_mul]; congr 1; omega) hout hl'
      rw [Sequence.mapM_cons_ok ha, runVisits_cons, hoff, hstep]
      cases hm : ((List.range' (i + 1) n).map p.main.visit).mapM (op.rowAlone p arena) with
      | error e =>
        rw [hm] at hnext
        exact hnext
      | ok slices =>
        rw [hm] at hnext
        obtain ⟨s'', hrun, hout'⟩ := hnext
        exact ⟨s'', hrun, by simp [hout']⟩

/-- **A run over consecutive rows** is the sequence of its rows alone, with the slices end to end. -/
theorem fresh_slices (hw : op.rowType.writesRows = true) (hk : op.kernel.RowLocal p.env visits arena p.cols) (i n : Nat)
    (hv : ∀ j ∈ List.range' i n, p.main.visit j ∈ visits) :
    op.fresh p arena i (n * p.cols) ((List.range' i n).map p.main.visit) =
      (((List.range' i n).map p.main.visit).mapM (op.rowAlone p arena)).map List.flatten := by
  have hrun := runVisits_slices hw hk n le_rfl hv
    (RowState.zeros (n * p.cols) arena) [] (by simp)
    (by simp [Vector.toList, zeros]) .acquired
  unfold fresh
  cases hm : ((List.range' i n).map p.main.visit).mapM (op.rowAlone p arena) with
  | error e =>
    rw [hm] at hrun
    obtain ⟨s', hs⟩ := hrun
    simp only [hs, Except.map]
  | ok slices =>
    rw [hm] at hrun
    obtain ⟨s', hs, hout⟩ := hrun
    simp only [hs, Except.map, hout, List.nil_append]

/-! ## Ranges and whole runs -/

/-- the rows of a range run alone, in order -/
def rowsAlone (op : Fused α) (p : Prepared α) (arena : Scratch α) (r : RowRange) :
    Except (Stop KernelError) (List (List α)) :=
  (r.rows.map p.main.visit).mapM (op.rowAlone p arena)

theorem fresh_range (hw : op.rowType.writesRows = true)
    (hk : op.kernel.RowLocal p.env (p.main.visits ⟨0, p.main.rows⟩) arena p.cols) {r : RowRange}
    (hr : r.stop ≤ p.main.rows) :
    op.fresh p arena r.start (r.size * p.cols) (p.main.visits r) = (op.rowsAlone p arena r).map List.flatten := by
  rw [Block.visits_eq p.main r hr]
  exact fresh_slices hw hk r.start r.size fun j hj => Block.visit_mem hr hj

theorem rowsAlone_inBounds (hw : op.rowType.writesRows = true)
    (hk : op.kernel.RowLocal p.env (p.main.visits ⟨0, p.main.rows⟩) arena p.cols) {r : RowRange}
    (hr : r.stop ≤ p.main.rows) : op.rowsAlone p arena r ≠ .error .outOfBounds := by
  intro h
  obtain ⟨before, v, after, hl, -, hv⟩ := Sequence.mapM_error_iff.1 h
  have hmem : v ∈ r.rows.map p.main.visit := by simp [hl]
  obtain ⟨i, hi, rfl⟩ := List.mem_map.1 hmem
  exact rowAlone_inBounds hw hk (Block.visit_mem hr hi) hv

theorem rowsAlone_tiles {ranges : List RowRange} (h : Partition.Tiles 0 p.main.rows ranges) :
    op.rowsAlone p arena ⟨0, p.main.rows⟩ = (ranges.mapM (op.rowsAlone p arena)).map List.flatten := by
  unfold rowsAlone
  rw [← h.map_rows, Sequence.mapM_flatten, List.mapM_map]
  rfl

/-- **A serial run has the slices of its rows end to end**, or the fault of the first row that fails. -/
theorem runFresh_slices (hp : op.prepare inputs scalars = .ok p) (hw : op.rowType.writesRows = true)
    (ha : op.taskScratch p.env = .ok arena)
    (hk : op.kernel.RowLocal p.env (p.main.visits ⟨0, p.main.rows⟩) arena p.cols) :
    op.runFresh p =
      match op.rowsAlone p arena ⟨0, p.main.rows⟩ with
      | .ok slices => .ok (assembled p slices)
      | .error e => .error (liftStop e) := by
  obtain ⟨hrows, hflip⟩ := prepare_writesRows hp hw
  have hrun := fresh_range hw hk (r := ⟨0, p.main.rows⟩) le_rfl
  simp only [RowRange.size, Nat.sub_zero] at hrun
  rw [runFresh_eq ha, hrows, hrun]
  cases op.rowsAlone p arena ⟨0, p.main.rows⟩ with
  | ok slices => simp [Except.map, closeOutput, hflip, assembled, Dense.recount, hrows]
  | error e => rfl

theorem runTask_slices (hw : op.rowType.writesRows = true) (ha : op.taskScratch p.env = .ok arena)
    (hk : op.kernel.RowLocal p.env (p.main.visits ⟨0, p.main.rows⟩) arena p.cols) {r : RowRange}
    (hr : r.stop ≤ p.main.rows) :
    op.runTask p (op.taskOf p r) = (op.rowsAlone p arena r).map fun slices => slices.flatten.toArray := by
  rw [runTask_eq ha, taskOf_of_writesRows hw]
  simp only
  rw [fresh_range hw hk hr]
  cases op.rowsAlone p arena r <;> rfl

omit [Cell α] in
theorem foldl_append_slices (parts : List (List α)) (start : Array α) :
    (parts.map List.toArray).foldl (· ++ ·) start = start ++ parts.flatten.toArray := by
  induction parts generalizing start with
  | nil => simp
  | cons part parts ih =>
    rw [List.map_cons, List.foldl_cons, ih]
    simp

theorem total_countNonZero (parts : List (List α)) :
    total ((parts.map List.toArray).map countNonZero) = countNonZero parts.flatten.toArray := by
  induction parts with
  | nil => rfl
  | cons part parts ih =>
    simp only [List.map_cons, total_cons, ih, List.flatten_cons]
    simp [countNonZero, List.countP_append]

theorem joinSlices_eq (groups : List (List (List α))) :
    joinSlices p (groups.map fun slices => slices.flatten.toArray) = assembled p groups.flatten := by
  have hmap : (groups.map fun slices => slices.flatten.toArray) = (groups.map List.flatten).map List.toArray := by
    simp
  unfold joinSlices assembled
  rw [hmap, foldl_append_slices, total_countNonZero, ← List.flatten_flatten]
  simp

/-- **A run in tasks has the same slices end to end**, or as the fault of a task the fault of the first row that
fails. -/
theorem runTasks_slices (hw : op.rowType.writesRows = true) (ha : op.taskScratch p.env = .ok arena)
    (hk : op.kernel.RowLocal p.env (p.main.visits ⟨0, p.main.rows⟩) arena p.cols) {k : Nat}
    (hf : op.fallsBack p inputs k = false) :
    match op.rowsAlone p arena ⟨0, p.main.rows⟩ with
    | .ok slices => op.runTasks p k = .ok (assembled p slices)
    | .error (.fault e) => ∃ task, op.runTasks p k = .error (.fault (.task task e))
    | .error .outOfBounds => False := by
  obtain ⟨ranges, htiles, htasks⟩ := exists_tasks hf
  have hagg : op.rowType.aggregates = false := RowType.aggregates_of_writesRows hw
  have htask : ∀ r ∈ ranges, op.runTask p (op.taskOf p r) =
      (op.rowsAlone p arena r).map fun slices => slices.flatten.toArray :=
    fun r hr => runTask_slices hw ha hk (htiles.stop_le r hr)
  have hmap : (ranges.map (op.taskOf p)).mapM (op.runTask p) =
      (ranges.mapM (op.rowsAlone p arena)).map (List.map fun slices => slices.flatten.toArray) := by
    rw [List.mapM_map, ← Sequence.mapM_map_result]
    exact Sequence.mapM_congr htask
  have hcut : ∀ t ∈ ranges.map (op.taskOf p), op.runTask p t ≠ .error .outOfBounds := by
    intro t ht h
    obtain ⟨r, hr, rfl⟩ := List.mem_map.1 ht
    rw [htask r hr] at h
    cases hrow : op.rowsAlone p arena r with
    | ok slices => rw [hrow] at h; cases h
    | error e =>
      rw [hrow] at h
      exact rowsAlone_inBounds hw hk (htiles.stop_le r hr) (hrow.trans (congrArg _ (Except.error.inj h)))
  have hall : op.rowsAlone p arena ⟨0, p.main.rows⟩ ≠ .error .outOfBounds := rowsAlone_inBounds hw hk le_rfl
  rw [rowsAlone_tiles htiles] at hall ⊢
  unfold runTasks
  simp only [htasks, hagg, Bool.false_eq_true, if_false]
  cases hg : ranges.mapM (op.rowsAlone p arena) with
  | ok groups =>
    rw [hg] at hmap
    simp only [TaskGroup.run_of_ok _ _ hmap, bind, Except.bind, pure, Except.pure, joinSlices_eq, Except.map]
  | error e =>
    rw [hg] at hmap hall
    cases e with
    | outOfBounds => exact hall rfl
    | fault e =>
      obtain ⟨task, hrun⟩ := TaskGroup.run_of_fault (TaskGroup.ofCount k) _ hcut hmap
      exact ⟨task, by simp only [hrun, bind, Except.bind]⟩

/-! ## The first row that fails -/

/-- row `i` fails when run alone, and no row before it does -/
structure FirstFault (op : Fused α) (p : Prepared α) (arena : Scratch α) (i : Nat) (e : KernelError) : Prop where
  row : i < p.main.rows
  fails : op.rowAlone p arena (p.main.visit i) = .error (.fault e)
  before : ∀ j < i, ∃ new, op.rowAlone p arena (p.main.visit j) = .ok new

/-- all rows together fail exactly as the first row that fails -/
theorem rowsAlone_fault_iff {e : KernelError} :
    op.rowsAlone p arena ⟨0, p.main.rows⟩ = .error (.fault e) ↔ ∃ i, op.FirstFault p arena i e := by
  have hrows : op.rowsAlone p arena ⟨0, p.main.rows⟩ =
      (List.range p.main.rows).mapM fun i => op.rowAlone p arena (p.main.visit i) := by
    simp only [rowsAlone, RowRange.rows, RowRange.size, Nat.sub_zero, List.range_eq_range', List.mapM_map]
    rfl
  rw [hrows, Sequence.mapM_range_error_iff]
  constructor
  · rintro ⟨i, hi, hfails, hbefore⟩
    exact ⟨i, hi, hfails, hbefore⟩
  · rintro ⟨i, hi, hfails, hbefore⟩
    exact ⟨i, hi, hfails, hbefore⟩

/-- **A parallel run is the serial run**, for every row type that writes rows, every block, every number of tasks and
all settings: it succeeds with a block exactly if the serial run succeeds with this block. If a row fails, the
serial run has the fault of the first such row, and so has the parallel run, which names a task unless it fell back to
a serial run; if no row fails, both succeed. -/
theorem executeParallel_iff_execute (op : Fused α) (inputs : List (Block α)) (scalars : List α) (k : Nat)
    (hw : op.rowType.writesRows = true)
    (ha : ∀ p, op.prepare inputs scalars = .ok p → ∃ arena, op.taskScratch p.env = .ok arena)
    (hk : ∀ p arena, op.prepare inputs scalars = .ok p → op.taskScratch p.env = .ok arena →
      op.kernel.RowLocal p.env (p.main.visits ⟨0, p.main.rows⟩) arena p.cols) :
    (∀ out, op.executeParallel inputs scalars k = .ok out ↔ op.execute inputs scalars = .ok out) ∧
    ∀ p arena, op.prepare inputs scalars = .ok p → op.taskScratch p.env = .ok arena →
      (∀ i e, op.FirstFault p arena i e →
        op.execute inputs scalars = .error (.fault (.kernel e)) ∧
        if op.fallsBack p inputs (op.grantedTasks k) then
          op.executeParallel inputs scalars k = .error (.fault (.kernel e))
        else ∃ task, op.executeParallel inputs scalars k = .error (.fault (.task task e))) ∧
      ((∀ i e, ¬ op.FirstFault p arena i e) → ∃ out, op.execute inputs scalars = .ok out) := by
  cases hp : op.prepare inputs scalars with
  | error e =>
    refine ⟨fun out => ?_, fun p arena h => by cases h⟩
    simp only [executeParallel, execute, hp]
  | ok p =>
    obtain ⟨arena, hs⟩ := ha p hp
    have hlocal := hk p arena hp hs
    have hserial := runFresh_slices hp hw hs hlocal
    rw [execute_eq hp, executeParallel_eq hp]
    constructor
    · intro out
      by_cases hf : op.fallsBack p inputs (op.grantedTasks k) = true
      · rw [if_pos hf]
      · have htasks := runTasks_slices hw hs hlocal (Bool.eq_false_iff.2 hf)
        rw [if_neg hf, hserial]
        rcases hrows : op.rowsAlone p arena ⟨0, p.main.rows⟩ with (e | _) | slices
        · rw [hrows] at htasks
          obtain ⟨task, htask⟩ := htasks
          simp [htask]
        · rw [hrows] at htasks
          exact htasks.elim
        · rw [hrows] at htasks
          rw [htasks]
    · intro p' arena' hp' hs'
      obtain rfl := Except.ok.inj hp'
      obtain rfl := Except.ok.inj (hs.symm.trans hs')
      constructor
      · intro i e hfirst
        have hrows := rowsAlone_fault_iff.2 ⟨i, hfirst⟩
        rw [hserial, hrows]
        refine ⟨rfl, ?_⟩
        by_cases hf : op.fallsBack p inputs (op.grantedTasks k) = true
        · rw [if_pos hf, if_pos hf]
          rfl
        · have htasks := runTasks_slices hw hs hlocal (Bool.eq_false_iff.2 hf)
          rw [hrows] at htasks
          rw [if_neg hf, if_neg hf]
          exact htasks
      · intro hnone
        rw [hserial]
        rcases hrows : op.rowsAlone p arena ⟨0, p.main.rows⟩ with (e | _) | slices
        · obtain ⟨i, hfirst⟩ := rowsAlone_fault_iff.1 hrows
          exact (hnone i e hfirst).elim
        · exact (rowsAlone_inBounds hw hlocal le_rfl hrows).elim
        · exact ⟨_, rfl⟩

end Fused

/-- row sums with an injected failure are local to their rows -/
theorem Kernel.failFrom_rowLocal (start : Nat) (env : KernelEnv α) (visits : List (Visit α)) (arena : Scratch α) :
    (failFrom start).RowLocal env visits arena 1 := by
  intro v _
  refine ⟨fun _ => if start ≤ v.row then .error (.row v.row "injected failure")
    else .ok [Cell.sum v.data.values.toList], ?_⟩
  intro cells s before old after hs hold _
  obtain ⟨x, rfl⟩ := List.length_eq_one_iff.1 hold
  by_cases hrow : start ≤ v.row
  · rw [if_pos hrow]
    refine ⟨s, ?_⟩
    simp only [failFrom, hrow, if_true]
    rfl
  · obtain ⟨hfits, happly⟩ := Write.cell_at (v := x) (by simpa using hs) fun _ => Cell.sum v.data.values.toList
    rw [if_neg hrow]
    refine ⟨⟨(Write.cell before.length fun _ => Cell.sum v.data.values.toList).apply s.out, s.scratch⟩, ?_,
      by simpa using happly⟩
    simp [failFrom, hrow, RowM.write, hfits, bind]

/-- row sums in at most two tasks, which fail from row `start` on -/
def failingSums (start : Nat) : Fused Int :=
  ⟨.rowAgg, .failFrom start, none, false, 0, { parallelCells := 0, maxTasks := 2 }⟩

/-- of three rows the last two fail, and the fault of row 1 comes out, from the serial run and from a task; if none of
them fails, two tasks make the block of the serial run -/
theorem failing_sums_report_row_one :
    ((failingSums 1).execute [threeRows] [] = .error (.fault (.kernel (.row 1 "injected failure"))) ∧
      ∃ task, (failingSums 1).executeParallel [threeRows] [] 2 =
        .error (.fault (.task task (.row 1 "injected failure")))) ∧
    ∃ out, (failingSums 3).execute [threeRows] [] = .ok out ∧
      (failingSums 3).executeParallel [threeRows] [] 2 = .ok out := by
  have hp : ∀ start, (failingSums start).prepare [threeRows] [] =
      .ok ⟨threeRows, ⟨[], [], 2, none⟩, 3, 1, false⟩ := fun _ => rfl
  have h := fun start => Fused.executeParallel_iff_execute (failingSums start) [threeRows] [] 2 rfl
    (fun p _ => ⟨.empty, rfl⟩) (by
      intro p arena h _
      obtain rfl := Except.ok.inj ((hp start).symm.trans h)
      exact Kernel.failFrom_rowLocal start _ _ _)
  constructor
  · exact ((h 1).2 _ .empty (hp 1) rfl).1 1 (.row 1 "injected failure") ⟨by decide, rfl, fun j hj => by
      obtain rfl : j = 0 := by omega
      exact ⟨[3], rfl⟩⟩
  · obtain ⟨out, hserial⟩ := ((h 3).2 _ .empty (hp 3) rfl).2 fun i e hfault => by
      have hrow : i < 3 := hfault.row
      have hfails := hfault.fails
      interval_cases i <;> cases hfails
    exact ⟨out, hserial, ((h 3).1 out).2 hserial⟩

end MatrixEngine
