/-
A row-wise run does not depend on the representation of its primary input.

A dense block, the sparse block of its non-zero cells and any compressed block made of it (`Dense.Represented`) have the
same rows, as cells or as non-zero cells. If a kernel does the same to both forms of a row (`Fused.FormsAgree`), the run
has the same result.
- `visits_represented`: the rows of a representation are the dense rows, or the non-zero cells of the dense rows.
- `runVisits_sameEffect`: runs over rows on which the kernel agrees one by one have the same effect.
- `execute_represented`: the result of a run is that of the dense block, and is what the kernel makes of every row once,
  in order, with its number and the offset of its output.
-/
import MatrixEngine.Proofs.Block.Compression
import MatrixEngine.Proofs.Block.SparseRows
import MatrixEngine.Proofs.Number.Sums
import MatrixEngine.Proofs.Rowwise.Runs
import MatrixEngine.Rowwise.Kernels.Standard

namespace MatrixEngine

open Cell

variable {α : Type} [Cell α] [DecidableEq α]

/-! ## Rows of the representations -/

/-- the block holds the cells of a dense block: as they are, as its non-zero cells, or compressed -/
inductive Dense.Represented (d : Dense α) : Block α → Prop
  | dense : Represented d (.dense d)
  | sparse : Represented d (.sparse (.ofDense d))
  | compressed {width : Nat} {c : Compressed α} : Compressed.ofDense d width = .ok c → Represented d (.compressed c)

/-- row `i` of a dense block as its non-zero cells -/
def Visit.nonZeros (d : Dense α) (i : Nat) : Visit α :=
  ⟨i, .sparse ((d.rowEntries i).map (·.2)).toArray ((d.rowEntries i).map (·.1)).toArray⟩

namespace Dense

variable {d : Dense α} {b : Block α}

omit [DecidableEq α] in
theorem visit_ofDense {i : Nat} (hi : i < d.rows) : Visit.ofSparse (Sparse.ofDense d) i = Visit.nonZeros d i := by
  have hlen : i < ((List.range d.rows).map d.rowEntries).length := by simpa using hi
  have hrow : ((List.range d.rows).map d.rowEntries)[i] = d.rowEntries i := by simp
  unfold Visit.ofSparse Visit.nonZeros Sparse.ofDense
  split_ifs with hempty
  · rw [Sparse.isEmptyRow_ofEntries hlen, hrow] at hempty
    simp [Visit.vacant, hempty]
  · rw [Sparse.rowIndexes_ofEntries hlen, Sparse.rowValues_ofEntries hlen, hrow]

theorem Represented.rows_eq (h : d.Represented b) : b.rows = d.rows := by
  cases h with
  | dense => rfl
  | sparse => simp [Block.rows, Sparse.ofDense, Sparse.ofEntries]
  | compressed hc => exact (Compressed.ofDense_ok hc).2.1

theorem Represented.cols_eq (h : d.Represented b) : b.cols = d.cols := by
  cases h with
  | dense => rfl
  | sparse => rfl
  | compressed hc => exact (Compressed.ofDense_ok hc).2.2.1

/-- **The rows of a representation**, from first to last: all as the dense rows, or all as the non-zero cells of the
dense rows. -/
theorem visits_represented (h : d.Represented b) (hd : d.Sized) :
    b.visits ⟨0, b.rows⟩ = (List.range d.rows).map (Visit.ofDense d) ∨
      b.visits ⟨0, b.rows⟩ = (List.range d.rows).map (Visit.nonZeros d) := by
  rw [Block.visits_all, h.rows_eq]
  cases h with
  | dense => exact Or.inl rfl
  | sparse => exact Or.inr (List.map_congr_left fun i hi => visit_ofDense (List.mem_range.1 hi))
  | @compressed width c hc =>
    by_cases hempty : c.isEmpty = true
    · -- no row has a non-zero cell, so no row has entries
      refine Or.inr (List.map_congr_left fun i hi => ?_)
      have hi' := List.mem_range.1 hi
      have hnil := (rowEntries_eq_nil_iff hd hi').2 ((Compressed.isEmpty_ofDense_iff hc).1 hempty i hi')
      simp [Block.visit, hempty, Visit.vacant, Visit.nonZeros, hnil]
    · refine Or.inl (List.map_congr_left fun i hi => ?_)
      simp [Block.visit, hempty, Visit.ofDense, Compressed.row_ofDense hc hd.full (List.mem_range.1 hi)]

end Dense

/-! ## Runs over both forms of the rows -/

/-- two calls end alike: with the same output cells, or stopped by the same fault -/
def SameEffect {cells : Nat} : EStateM.Result (Stop KernelError) (RowState α cells) Unit →
    EStateM.Result (Stop KernelError) (RowState α cells) Unit → Prop
  | .ok _ s, .ok _ t => s.out = t.out
  | .error e _, .error f _ => e = f
  | _, _ => False

namespace Fused

variable {op : Fused α} {inputs : List (Block α)} {scalars : List α} {p : Prepared α} {arena : Scratch α}
  {d : Dense α} {b : Block α}

/-- the rows of a dense block in both forms -/
def bothForms (d : Dense α) : List (Visit α) :=
  (List.range d.rows).map (Visit.ofDense d) ++ (List.range d.rows).map (Visit.nonZeros d)

/-- the kernel does the same to the dense form and to the sparse form of every row, whatever calls for rows in these
forms left in the scratch vectors -/
def FormsAgree (op : Fused α) (d : Dense α) (p : Prepared α) (arena : Scratch α) : Prop :=
  ∀ i < d.rows, ∀ s t : RowState α (p.rows * p.cols), s.out = t.out →
    op.kernel.Lends p.env (bothForms d) arena s.scratch → op.kernel.Lends p.env (bothForms d) arena t.scratch →
    SameEffect (op.kernel.step p.env (Visit.ofDense d i) (op.offset p.cols 0 i) s)
      (op.kernel.step p.env (Visit.nonZeros d i) (op.offset p.cols 0 i) t)

omit [DecidableEq α] in
/-- **Runs over the same rows in both forms** have the same effect. -/
theorem runVisits_sameEffect (hk : op.FormsAgree d p arena) {rows : List Nat} (hrows : ∀ i ∈ rows, i < d.rows)
    {s t : RowState α (p.rows * p.cols)} (hst : s.out = t.out)
    (hs : op.kernel.Lends p.env (bothForms d) arena s.scratch)
    (ht : op.kernel.Lends p.env (bothForms d) arena t.scratch) :
    SameEffect (op.runVisits p 0 (rows.map (Visit.ofDense d)) s)
      (op.runVisits p 0 (rows.map (Visit.nonZeros d)) t) := by
  induction rows generalizing s t with
  | nil => exact hst
  | cons i rows ih =>
    have hi : i ∈ List.range d.rows := List.mem_range.2 (hrows i List.mem_cons_self)
    have hcall := hk i (List.mem_range.1 hi) s t hst hs ht
    have hdense : Visit.ofDense d i ∈ bothForms d := List.mem_append_left _ (List.mem_map_of_mem hi)
    have hsparse : Visit.nonZeros d i ∈ bothForms d := List.mem_append_right _ (List.mem_map_of_mem hi)
    have hrow : (Visit.ofDense d i).row = i ∧ (Visit.nonZeros d i).row = i := ⟨rfl, rfl⟩
    rw [List.map_cons, List.map_cons, runVisits_cons, runVisits_cons, hrow.1, hrow.2]
    cases hstep : op.kernel.step p.env (Visit.ofDense d i) (op.offset p.cols 0 i) s with
    | ok _ s' =>
      cases hstep' : op.kernel.step p.env (Visit.nonZeros d i) (op.offset p.cols 0 i) t with
      | ok _ t' =>
        rw [hstep, hstep'] at hcall
        exact ih (fun j hj => hrows j (List.mem_cons_of_mem i hj)) hcall (.call hs hdense hstep)
          (.call ht hsparse hstep')
      | error e t' =>
        rw [hstep, hstep'] at hcall
        exact hcall.elim
    | error e s' =>
      cases hstep' : op.kernel.step p.env (Visit.nonZeros d i) (op.offset p.cols 0 i) t with
      | ok _ t' =>
        rw [hstep, hstep'] at hcall
        exact hcall.elim
      | error e' t' =>
        rw [hstep, hstep'] at hcall
        exact hcall

omit [DecidableEq α] in
theorem fresh_bothForms (hk : op.FormsAgree d p arena) :
    op.fresh p arena 0 (p.rows * p.cols) ((List.range d.rows).map (Visit.nonZeros d)) =
      op.fresh p arena 0 (p.rows * p.cols) ((List.range d.rows).map (Visit.ofDense d)) := by
  have hrun := runVisits_sameEffect hk (fun i hi => List.mem_range.1 hi)
    (s := RowState.zeros (p.rows * p.cols) arena) rfl .acquired .acquired
  unfold fresh
  revert hrun
  generalize op.runVisits p 0 ((List.range d.rows).map (Visit.ofDense d))
    (RowState.zeros (p.rows * p.cols) arena) = dense
  generalize op.runVisits p 0 ((List.range d.rows).map (Visit.nonZeros d))
    (RowState.zeros (p.rows * p.cols) arena) = sparse
  intro hrun
  rcases dense with ⟨_, s⟩ | ⟨e, s⟩ <;> rcases sparse with ⟨_, t⟩ | ⟨f, t⟩
  · have hout : s.out = t.out := hrun
    simp only [hout]
  · exact hrun.elim
  · exact hrun.elim
  · have he : e = f := hrun
    rw [he]

theorem runFresh_represented (hp : op.prepare (.dense d :: inputs) scalars = .ok p) (hd : d.Sized)
    (hb : d.Represented b)
    (hk : ∀ arena, op.taskScratch p.env = .ok arena → op.FormsAgree d p arena) :
    op.runFresh { p with main := b } = op.runFresh p := by
  obtain ⟨rest, hmain, -, -⟩ := prepare_ok hp
  obtain ⟨hmain, -⟩ := List.cons.inj hmain
  cases ha : op.taskScratch p.env with
  | error e => rw [runFresh_refused ha, runFresh_refused (p := { p with main := b }) ha]
  | ok arena =>
    have hdense : p.main.visits ⟨0, p.main.rows⟩ = (List.range d.rows).map (Visit.ofDense d) := by
      rw [← hmain, Block.visits_all]
      rfl
    have hfresh : op.fresh { p with main := b } arena 0 (p.rows * p.cols) (b.visits ⟨0, b.rows⟩) =
        op.fresh p arena 0 (p.rows * p.cols) ((List.range d.rows).map (Visit.ofDense d)) := by
      rcases Dense.visits_represented hb hd with hv | hv
      · rw [hv]
        rfl
      · rw [hv, ← fresh_bothForms (hk arena ha)]
        rfl
    rw [runFresh_eq ha, runFresh_eq (p := { p with main := b }) ha, hdense, hfresh]
    rfl

/-- **A run does not depend on the representation of its input.** For every dense block, every row type and all other
inputs, the result on a representation of the block (the same cells, count and dimensions, or the same fault) is that
on the block itself. It is what the calls of the kernel make of zeros, of which there is one for every row, in order: in
the form of the dense row or of its non-zero cells, with its number and the offset of its output, also if it has no
non-zero cell. -/
theorem execute_represented (op : Fused α) (d : Dense α) (hd : d.Sized) (rest : List (Block α)) (scalars : List α)
    (hk : ∀ p arena, op.prepare (.dense d :: rest) scalars = .ok p → op.taskScratch p.env = .ok arena →
      op.FormsAgree d p arena) :
    ∀ b, d.Represented b →
      op.execute (b :: rest) scalars = op.execute (.dense d :: rest) scalars ∧
      ∀ p, op.prepare (.dense d :: rest) scalars = .ok p →
        op.execute (b :: rest) scalars = op.replay p (op.schedule (b :: rest) scalars none) ∧
        ∃ form ∈ [Visit.ofDense d, Visit.nonZeros d],
          op.schedule (b :: rest) scalars none = (List.range d.rows).map fun i =>
            ⟨form i, if op.rowType.writesRows then i * p.cols else 0, p.rows * p.cols⟩ := by
  intro b hb
  have hprepare : op.prepare (b :: rest) scalars =
      (op.prepare (.dense d :: rest) scalars).map fun p => { p with main := b } :=
    prepare_congr hb.rows_eq hb.cols_eq rest
  cases hp : op.prepare (.dense d :: rest) scalars with
  | error e =>
    rw [hp] at hprepare
    refine ⟨?_, fun p h => by cases h⟩
    simp only [execute, hp, hprepare, Except.map]
  | ok p =>
    rw [hp] at hprepare
    refine ⟨?_, fun p' h => ?_⟩
    · rw [execute_eq hprepare, execute_eq hp]
      exact runFresh_represented hp hd hb fun arena ha => hk p arena hp ha
    · obtain rfl := Except.ok.inj h
      refine ⟨execute_schedule (p := { p with main := b }) hprepare, ?_⟩
      have hschedule : op.schedule (b :: rest) scalars none = (b.visits ⟨0, b.rows⟩).map fun v =>
          ⟨v, op.offset p.cols 0 v.row, p.rows * p.cols⟩ := by
        unfold schedule
        simp only [hprepare, Except.map]
        rfl
      rcases Dense.visits_represented hb hd with hv | hv
      · refine ⟨_, List.mem_cons_self, ?_⟩
        rw [hschedule, hv, List.map_map]
        rfl
      · refine ⟨_, List.mem_cons_of_mem _ List.mem_cons_self, ?_⟩
        rw [hschedule, hv, List.map_map]
        rfl

end Fused

/-! ## Row sums -/

theorem sum_rowEntries (d : Dense Int) (i : Nat) :
    Cell.sum ((d.rowEntries i).map (·.2)) = Cell.sum (d.row i).toList := by
  have hfold : ∀ (cells : List Int) (k : Nat) (start : Int),
      (((cells.zipIdx k).filterMap fun (v, j) => if isNonZero v then some (j, v) else none).map (·.2)).foldl (· + ·)
        start = cells.foldl (· + ·) start := by
    intro cells
    induction cells with
    | nil => intro k start; rfl
    | cons v cells ih =>
      intro k start
      rw [List.zipIdx_cons, List.filterMap_cons, List.foldl_cons]
      by_cases hv : isNonZero v = true
      · simp only [hv, if_true, List.map_cons, List.foldl_cons]
        exact ih (k + 1) (start + v)
      · have hzero : v = 0 := by simpa [isNonZero, isZero] using hv
        simp only [hv, Bool.false_eq_true, if_false]
        rw [hzero, Int.add_zero]
        exact ih (k + 1) start
  exact hfold _ 0 _

omit [DecidableEq α] in
/-- row sums do the same to a row and to its non-zero cells, if these have the sum of the row -/
theorem Kernel.rowSum_formsAgree {op : Fused α} (hop : op.kernel = .rowSum) {d : Dense α}
    (hsum : ∀ i < d.rows, Cell.sum ((d.rowEntries i).map (·.2)) = Cell.sum (d.row i).toList) (p : Prepared α)
    (arena : Scratch α) : op.FormsAgree d p arena := by
  intro i hi s t hst _ _
  rw [hop]
  simp only [rowSum, Visit.ofDense, Visit.nonZeros, RowData.values, hsum i hi, RowM.write]
  by_cases hfits : (Write.cell (op.offset p.cols 0 i) (· + Cell.sum (d.row i).toList)).fits (p.rows * p.cols) = true
  · simp only [hfits, if_true, SameEffect, hst]
  · simp only [hfits, Bool.false_eq_true, if_false, SameEffect]

def rowSums {α : Type} [Cell α] : Fused α := ⟨.rowAgg, .rowSum, none, false, 0, { maxTasks := 1 }⟩

def zerosAndTwo : Dense Int := ⟨2, 2, #[0, 2, 0, 0], 1⟩

def negativeZeros : Dense Float := ⟨1, 2, #[.ofBits 0x8000000000000000, .ofBits 0x8000000000000000], 0⟩

/-- these, compressed: one pair of columns with one pair of cells -/
def codedZeros : Compressed Float := ⟨1, 2, [⟨#[0, 1], #[negativeZeros.values], #[0]⟩], 0⟩

/-- the row of `zerosAndTwo` without non-zero cells comes as the second call; and of a compressed block without non-zero
cells the one row comes with nothing in it, and its sum is that of the negative zeros -/
theorem row_sums_of_sparse_rows :
    (rowSums.execute [.sparse (.ofDense zerosAndTwo)] [] = rowSums.execute [.dense zerosAndTwo] [] ∧
      ∃ form ∈ [Visit.ofDense zerosAndTwo, Visit.nonZeros zerosAndTwo],
        rowSums.schedule [.sparse (.ofDense zerosAndTwo)] [] none = [⟨form 0, 0, 2⟩, ⟨form 1, 1, 2⟩]) ∧
    Compressed.ofDense negativeZeros 2 = .ok codedZeros ∧
    rowSums.execute [.compressed codedZeros] [] = rowSums.execute [.dense negativeZeros] [] ∧
    rowSums.execute [.compressed codedZeros] [] = .ok ⟨1, 1, #[.ofBits 0], 0⟩ ∧
    rowSums.schedule [.compressed codedZeros] [] none = [⟨.vacant 0, 0, 1⟩] := by
  constructor
  · have hp : rowSums.prepare [.dense zerosAndTwo] [] = .ok ⟨.dense zerosAndTwo, ⟨[], [], 2, none⟩, 2, 1, false⟩ := rfl
    obtain ⟨hsame, hcalls⟩ := Fused.execute_represented rowSums zerosAndTwo rfl [] []
      (fun p arena _ _ => Kernel.rowSum_formsAgree rfl (fun i _ => sum_rowEntries _ i) p arena) _ .sparse
    exact ⟨hsame, (hcalls _ hp).2⟩
  · have hsum : ∀ i < negativeZeros.rows, Cell.sum ((negativeZeros.rowEntries i).map (·.2)) =
        Cell.sum (negativeZeros.row i).toList := by decide
    have hcoded : Compressed.ofDense negativeZeros 2 = .ok codedZeros := by decide +kernel
    obtain ⟨hsame, -⟩ := Fused.execute_represented rowSums negativeZeros rfl [] []
      (fun p arena _ _ => Kernel.rowSum_formsAgree rfl hsum p arena) _ (.compressed hcoded)
    exact ⟨hcoded, hsame, hsame.trans (by decide), rfl⟩

end MatrixEngine
