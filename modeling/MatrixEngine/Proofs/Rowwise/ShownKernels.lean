/-
The kernels behind the command line, over a dense block and over the sparse block of its cells that are not zero.

The two forms of a row reach a kernel by different ways, and what is left out of the sparse one must change nothing. A
row that is added to the output does the same from both forms as long as the output absorbs zeros, which it does to
begin with and after every row. A row that is written over the output has its zeros scaled in one form and not in the
other.
- `WritesAlike.step`, `runVisits_alike`: if both forms of every row are written alike to good cells and leave good
  cells, runs over both forms leave the same output.
- `runFresh_puts`: a run that writes every row whole returns the rows end to end.
- `execute_demoSums`, `execute_demoScale`: the sums of both forms are the same block; the scaled copies are given cell
  by cell.
- `shown_forms_eq_iff`: when the block of one form is that of the other, for floats.
-/
import MatrixEngine.Proofs.Number.SignedZeros
import MatrixEngine.Proofs.Rowwise.Representations
import MatrixEngine.Proofs.Rowwise.Slices
import MatrixEngine.Proofs.Rowwise.SparseWrites
import MatrixEngine.Rowwise.Kernels.Standard

namespace MatrixEngine

open Cell

variable {α : Type} [Cell α]

/-! ## Rows as writes -/

theorem Dense.rowEntries_eq_nonZeroEntries (d : Dense α) (i : Nat) : d.rowEntries i = nonZeroEntries (d.row i) := by
  have hentries : denseEntries (d.row i) = (d.row i).toList.zipIdx.map Prod.swap := by
    refine List.ext_getElem (by simp [denseEntries]) fun k _ _ => ?_
    simp [denseEntries]
  rw [nonZeroEntries, hentries, List.filter_map, Dense.rowEntries, ← List.filterMap_eq_map, ← List.filterMap_eq_filter,
    List.filterMap_filterMap]
  refine List.filterMap_congr fun e _ => ?_
  obtain ⟨v, k⟩ := e
  cases hv : isNonZero v <;> simp [hv, Option.guard]

theorem Dense.sparseEntries_row (d : Dense α) (i : Nat) :
    sparseEntries ((d.rowEntries i).map (·.1)).toArray ((d.rowEntries i).map (·.2)).toArray =
      nonZeroEntries (d.row i) := by
  rw [sparseEntries, ← rowEntries_eq_nonZeroEntries]
  exact (List.zip_of_prod rfl rfl).symm

theorem Dense.values_row (d : Dense α) (i : Nat) :
    (d.rowEntries i).map (·.2) = (d.row i).toList.filter isNonZero := by
  have hvalues : (denseEntries (d.row i)).map (·.2) = (d.row i).toList := List.map_snd_zip (by simp)
  conv_rhs => rw [← hvalues, List.filter_map]
  rw [rowEntries_eq_nonZeroEntries]
  rfl

/-- a call for a visit at an offset is a write to the output and nothing else -/
def Kernel.Writes (k : Kernel α) (env : KernelEnv α) (v : Visit α) (ci : Nat) (w : Write α) : Prop :=
  ∀ {cells : Nat} (s : RowState α cells), k.step env v ci s = RowM.write w s

omit [Cell α] in
theorem RowM.write_of_fits {w : Write α} {cells : Nat} {s : RowState α cells} (h : w.fits cells = true) :
    RowM.write w s = .ok () ⟨w.apply s.out, s.scratch⟩ := by
  simp only [RowM.write, h, if_true]

/-! ## Rows that accumulate -/

namespace Fused

variable {op : Fused α} {scalars : List α} {p : Prepared α} {arena : Scratch α} {d : Dense α} {len : Nat}
  {good : α → Prop}

/-- either form of row `i` is written to the window at the offset of the row, and both writes turn good cells into the
same good cells -/
structure WritesAlike (op : Fused α) (p : Prepared α) (d : Dense α) (len : Nat) (good : α → Prop) (i : Nat) :
    Prop where
  fits : op.offset p.cols 0 i + len ≤ p.rows * p.cols
  writes : ∃ v w : Write α, ∃ g g' : Nat → α → α,
    op.kernel.Writes p.env (.ofDense d i) (op.offset p.cols 0 i) v ∧ v.Changes (op.offset p.cols 0 i) len g ∧
    op.kernel.Writes p.env (.nonZeros d i) (op.offset p.cols 0 i) w ∧ w.Changes (op.offset p.cols 0 i) len g' ∧
    ∀ k < len, ∀ x, good x → g k x = g' k x ∧ good (g k x)

/-- a step: both forms of a row leave the same output, of good cells -/
theorem WritesAlike.step {i : Nat} (h : op.WritesAlike p d len good i) (s : RowState α (p.rows * p.cols))
    (hs : ∀ x ∈ s.out.toArray, good x) :
    ∃ s', op.kernel.step p.env (.ofDense d i) (op.offset p.cols 0 i) s = .ok () s' ∧
      op.kernel.step p.env (.nonZeros d i) (op.offset p.cols 0 i) s = .ok () s' ∧ ∀ x ∈ s'.out.toArray, good x := by
  obtain ⟨v, w, g, g', hdense, hv, hsparse, hw, hgood⟩ := h.writes
  obtain ⟨hfits, hchanged⟩ := hv _ s.out h.fits
  obtain ⟨hfits', hchanged'⟩ := hw _ s.out h.fits
  have hsame : w.apply s.out = v.apply s.out :=
    Vector.toArray_inj.1 (hchanged.eq_of_mem hchanged' fun k hk x hx => (hgood k hk x (hs x hx)).1).symm
  refine ⟨⟨v.apply s.out, s.scratch⟩, (hdense s).trans (RowM.write_of_fits hfits), ?_,
    hchanged.forall_mem hs fun k hk x hx => (hgood k hk x hx).2⟩
  rw [hsparse s, RowM.write_of_fits hfits', hsame]

/-- **Runs over both forms of the rows** succeed and leave the same output, if it has good cells to begin with. -/
theorem runVisits_alike {rows : List Nat} (h : ∀ i ∈ rows, op.WritesAlike p d len good i)
    (s : RowState α (p.rows * p.cols)) (hs : ∀ x ∈ s.out.toArray, good x) :
    ∃ s', op.runVisits p 0 (rows.map (Visit.ofDense d)) s = .ok () s' ∧
      op.runVisits p 0 (rows.map (Visit.nonZeros d)) s = .ok () s' := by
  induction rows generalizing s with
  | nil => exact ⟨s, rfl, rfl⟩
  | cons i rows ih =>
    -- after the row both runs are in one state again, of good cells
    obtain ⟨s₁, hdense, hsparse, hs₁⟩ := (h i List.mem_cons_self).step s hs
    obtain ⟨s', hrun, hrun'⟩ := ih (fun j hj => h j (List.mem_cons_of_mem i hj)) s₁ hs₁
    have hrow : (Visit.ofDense d i).row = i ∧ (Visit.nonZeros d i).row = i := ⟨rfl, rfl⟩
    refine ⟨s', ?_, ?_⟩
    · rw [List.map_cons, runVisits_cons, hrow.1, hdense]
      exact hrun
    · rw [List.map_cons, runVisits_cons, hrow.2, hsparse]
      exact hrun'

/-- **Serial runs over both forms of a block** return the same block. -/
theorem execute_alike [DecidableEq α] {rest : List (Block α)} (hp : op.prepare (.dense d :: rest) scalars = .ok p)
    (ha : op.taskScratch p.env = .ok arena) (h : ∀ i < d.rows, op.WritesAlike p d len good i) (hgood : good zero) :
    ∃ out, op.execute (.dense d :: rest) scalars = .ok out ∧
      op.execute (.sparse (.ofDense d) :: rest) scalars = .ok out := by
  have hsparse : d.Represented (.sparse (.ofDense d)) := .sparse
  have hp' : op.prepare (.sparse (.ofDense d) :: rest) scalars = .ok { p with main := .sparse (.ofDense d) } := by
    rw [prepare_congr (a := .dense d) hsparse.rows_eq hsparse.cols_eq, hp]
    rfl
  obtain ⟨rest', hmain, -, -⟩ := prepare_ok hp
  obtain ⟨hmain, -⟩ := List.cons.inj hmain
  have halike : ∀ i ∈ List.range d.rows, op.WritesAlike p d len good i := fun i hi => h i (List.mem_range.1 hi)
  obtain ⟨s', hrun, hrun'⟩ := runVisits_alike halike (RowState.zeros (p.rows * p.cols) arena) fun x hx => by
    rw [Array.eq_of_mem_replicate hx]
    exact hgood
  have hvisits : p.main.visits ⟨0, p.main.rows⟩ = (List.range d.rows).map (Visit.ofDense d) := by
    rw [← hmain, Block.visits_all]
    rfl
  have hvisits' : (Block.sparse (Sparse.ofDense d)).visits ⟨0, (Block.sparse (Sparse.ofDense d)).rows⟩ =
      (List.range d.rows).map (Visit.nonZeros d) := by
    rw [Block.visits_all, hsparse.rows_eq]
    exact List.map_congr_left fun i hi => Dense.visit_ofDense (List.mem_range.1 hi)
  refine ⟨closeOutput p false ⟨p.rows, p.cols, s'.out.toList.toArray, 0⟩, ?_, ?_⟩
  · rw [execute_eq hp, runFresh_eq ha, hvisits, fresh, hrun]
  · rw [execute_eq hp', runFresh_eq (p := { p with main := .sparse (.ofDense d) }) ha, hvisits']
    have hrun'' : op.runVisits { p with main := .sparse (.ofDense d) } 0 ((List.range d.rows).map (Visit.nonZeros d))
      (RowState.zeros (p.rows * p.cols) arena) = .ok () s' := hrun'
    simp only [fresh, hrun'']
    rfl

end Fused

omit [Cell α] in
theorem Write.cell_changes (ci : Nat) (f : α → α) : (cell ci f).Changes ci 1 fun _ => f := by
  intro n c hn
  have hcell : ∀ i : Nat, (modifyCell c ci f).toArray[i]? = if ci = i then c.toArray[i]?.map f else c.toArray[i]? := by
    intro i
    rw [← Array.getElem?_toList, ← Array.getElem?_toList]
    exact getElem?_modifyCell c ci i f
  refine ⟨decide_eq_true hn, by simp [cell], fun k hk => ?_, fun i hi => ?_⟩
  · obtain rfl : k = 0 := by omega
    exact (hcell (ci + 0)).trans (if_pos rfl)
  · exact (hcell i).trans (if_neg (by omega))

namespace Kernel

variable [NeutralZeros α] {op : Fused α} {p : Prepared α} {d : Dense α} {i : Nat}

/-- row sums are written alike to cells that absorb zeros: both sums are the same number -/
theorem rowSum_writesAlike (hop : op.kernel = .rowSum) (hfits : op.offset p.cols 0 i + 1 ≤ p.rows * p.cols) :
    op.WritesAlike p d 1 Absorbs i := by
  have hsum := sum_filter_nonZero (d.row i).toList
  rw [← d.values_row] at hsum
  refine ⟨hfits, _, _, _, _, fun _ => by rw [hop]; rfl, Write.cell_changes _ _, fun _ => by rw [hop]; rfl,
    Write.cell_changes _ _, fun k _ x hx => ⟨hx.add_eq hsum.symm, NeutralZeros.absorbs_add hx _⟩⟩

/-- column sums are: what is left out would be added as a zero -/
theorem demoColSum_writesAlike (hop : op.kernel = .demoColSum) (hn : (d.row i).size = d.cols)
    (hfits : op.offset p.cols 0 i + d.cols ≤ p.rows * p.cols) : op.WritesAlike p d d.cols Absorbs i := by
  have hdense := Write.window_changes (d.row i) (op.offset p.cols 0 i) (· + ·)
  have hsparse := Write.points_changes (d.row i) (op.offset p.cols 0 i) (· + ·)
  rw [hn] at hdense hsparse
  refine ⟨hfits, _, _, _, _, fun _ => by rw [hop]; rfl, hdense, fun _ => by rw [hop, ← d.sparseEntries_row]; rfl,
    hsparse, fun k _ x hx => ⟨?_, NeutralZeros.absorbs_add hx _⟩⟩
  split_ifs with hv
  · rfl
  · exact hx _ (by simpa [isNonZero] using hv)

end Kernel

/-! ## Rows that are written -/

/-- a write that changes a window to given cells puts these in the place of the old ones -/
theorem Write.Changes.apply_at {w : Write α} {b : Array α} {n : Nat} {c : Vector α n} {before old after : List α}
    (h : w.Changes before.length b.size fun k _ => b.getD k zero) (hc : c.toList = before ++ old ++ after)
    (hb : b.size = old.length) : w.fits n = true ∧ (w.apply c).toList = before ++ b.toList ++ after := by
  have hn : n = c.toList.length := by simp
  have hfits : before.length + b.size ≤ n := by
    rw [hn, hc, List.length_append, List.length_append]
    omega
  have hcells : old.zipWith (fun _ x => x) b.toList = b.toList :=
    List.ext_getElem (by simp [hb]) fun k _ _ => by simp
  have hcopied := window_at (fun _ x => x) b hc hb
  rw [hcells] at hcopied
  have hsame : w.apply c = (window (fun _ x => x) b before.length).apply c :=
    Vector.toArray_inj.1 ((h n c hfits).2.eq (copy_changes b before.length n c hfits).2 fun _ _ => rfl)
  rw [hsame]
  exact ⟨(h n c hfits).1, hcopied.2⟩

/-- wherever its window lies, the call for a visit writes the given cells over it -/
def Kernel.Puts (k : Kernel α) (env : KernelEnv α) (v : Visit α) (b : Array α) : Prop :=
  ∀ ci, ∃ w, k.Writes env v ci w ∧ w.Changes ci b.size fun j _ => b.getD j zero

theorem Kernel.Puts.followsRule {k : Kernel α} {env : KernelEnv α} {v : Visit α} {b : Array α} (h : k.Puts env v b)
    (visits : List (Visit α)) (arena : Scratch α) :
    k.FollowsRule env visits arena b.size v fun _ => .ok b.toList := by
  intro cells s before old after hs hold _
  obtain ⟨w, hstep, hw⟩ := h before.length
  obtain ⟨hfits, hout⟩ := hw.apply_at hs hold.symm
  exact ⟨_, (hstep s).trans (RowM.write_of_fits hfits), hout⟩

namespace Fused

variable {op : Fused α} {inputs : List (Block α)} {scalars : List α} {p : Prepared α} {arena : Scratch α}

/-- **A serial run over rows that are put** has the cells put for them, end to end. -/
theorem runFresh_puts (hp : op.prepare inputs scalars = .ok p) (hw : op.rowType.writesRows = true)
    (ha : op.taskScratch p.env = .ok arena) {b : Nat → Array α}
    (hk : ∀ i < p.main.rows, (b i).size = p.cols ∧ op.kernel.Puts p.env (p.main.visit i) (b i)) :
    op.runFresh p = .ok (assembled p ((List.range p.main.rows).map fun i => (b i).toList)) := by
  have hrule : ∀ i < p.main.rows, op.kernel.FollowsRule p.env (p.main.visits ⟨0, p.main.rows⟩) arena p.cols
      (p.main.visit i) fun _ => .ok (b i).toList := by
    intro i hi
    rw [← (hk i hi).1]
    exact (hk i hi).2.followsRule _ arena
  have hlocal : op.kernel.RowLocal p.env (p.main.visits ⟨0, p.main.rows⟩) arena p.cols := by
    intro v hv
    rw [p.main.visits_all] at hv
    obtain ⟨i, hi, rfl⟩ := List.mem_map.1 hv
    exact ⟨fun _ => .ok (b i).toList, hrule i (List.mem_range.1 hi)⟩
  have hrows : op.rowsAlone p arena ⟨0, p.main.rows⟩ =
      .ok ((List.range p.main.rows).map fun i => (b i).toList) := by
    rw [rowsAlone, RowRange.rows, RowRange.size, Nat.sub_zero, ← List.range_eq_range', Sequence.mapM_ok_iff,
      List.forall₂_map_left_iff, List.forall₂_map_right_iff, List.forall₂_same]
    intro i hi
    exact rowAlone_eq hw (@hrule i (List.mem_range.1 hi))
  rw [runFresh_slices hp hw ha hlocal, hrows]

end Fused

namespace Dense

variable {d : Dense α}

/-- the block with a function applied to all cells, counted anew -/
def mapCells (d : Dense α) (f : α → α) : Dense α := recount ⟨d.rows, d.cols, d.values.map f, 0⟩

theorem mapCells_eq_iff {f g : α → α} : d.mapCells f = d.mapCells g ↔ ∀ v ∈ d.values, f v = g v := by
  rw [← Array.map_inj_left]
  exact ⟨fun h => congrArg values h, fun h => by rw [mapCells, mapCells, h]⟩

omit [Cell α] in
theorem Sized.flatten_rows (h : d.Sized) :
    ((List.range d.rows).map fun i => (d.row i).toList).flatten = d.values.toList := by
  have hfront : ∀ n, ((List.range n).map fun i => (d.row i).toList).flatten = d.values.toList.take (n * d.cols) := by
    intro n
    induction n with
    | zero => simp
    | succ n ih =>
      rw [List.range_succ, List.map_append, List.flatten_append, ih, Nat.succ_mul, List.take_add]
      simp [row, pos, List.take_drop]
  rw [hfront, List.take_of_length_le]
  exact h.le

end Dense

theorem Fused.assembled_mapCells {p : Prepared α} {d : Dense α} (hd : d.Sized) (hrows : p.rows = d.rows)
    (hcols : p.cols = d.cols) (f : α → α) :
    assembled p ((List.range d.rows).map fun i => ((d.row i).map f).toList) = d.mapCells f := by
  have hcells : ((List.range d.rows).map fun i => ((d.row i).map f).toList).flatten.toArray = d.values.map f := by
    rw [← Array.toList_inj, Array.toList_map, ← hd.flatten_rows, List.map_flatten, List.map_map]
    simp [Function.comp_def]
  rw [assembled, hcells, hrows, hcols]
  rfl

namespace Kernel

variable {d : Dense α} {env : KernelEnv α}

theorem demoScale_puts_dense (d : Dense α) (i : Nat) :
    demoScale.Puts env (.ofDense d i) ((d.row i).map (· * scalarOrOne env)) := by
  refine fun ci => ⟨.multPut (d.row i) (scalarOrOne env) ci, fun _ => rfl, ?_⟩
  rw [Array.size_map]
  refine (Write.window_changes (d.row i) ci fun _ x => x * scalarOrOne env).congr fun k hk => ?_
  simp [hk]

/-- a sparse row is written with the cells scaled that are not zero, and zeros for the others -/
theorem demoScale_puts_sparse {i : Nat} (hn : (d.row i).size = env.n) : demoScale.Puts env (.nonZeros d i)
    ((d.row i).map fun v => if isNonZero v then v * scalarOrOne env else zero) := by
  refine fun ci => ⟨(Write.clear ci env.n).andThen
    (.points (fun _ x => x * scalarOrOne env) (nonZeroEntries (d.row i)) ci), ?_, ?_⟩
  · rw [← d.sparseEntries_row]
    exact fun _ => rfl
  · have hpoints := Write.points_changes (d.row i) ci fun _ x => x * scalarOrOne env
    rw [Array.size_map]
    rw [hn] at hpoints ⊢
    refine ((Write.clear_changes ci env.n).andThen hpoints).congr fun k hk => ?_
    simp [hn, hk]

end Kernel

/-! ## The kernels of the command line -/

namespace Fused

variable [DecidableEq α]

/-- a kernel as the command line runs it: over one input, without scratch vectors -/
def shown (t : RowType) (k : Kernel α) (config : RunConfig) : Fused α := { rowType := t, kernel := k, config }

/-- **Scaled copies of both forms of a block.** From the dense form all cells are scaled; from the sparse form the cells
that are not zero are, and the others are the one zero that the output is cleared with. -/
theorem execute_demoScale (config : RunConfig) (d : Dense α) (hd : d.Sized) (scalars : List α) :
    (shown .noAgg .demoScale config).execute [.dense d] scalars =
      .ok (d.mapCells (· * scalars.head?.getD (Cell.ofNat 1))) ∧
    (shown .noAgg .demoScale config).execute [.sparse (.ofDense d)] scalars =
      .ok (d.mapCells fun v => if isNonZero v then v * scalars.head?.getD (Cell.ofNat 1) else zero) := by
  have hsparse : d.Represented (.sparse (.ofDense d)) := .sparse
  have hrows : (Sparse.ofDense d).rows = d.rows := hsparse.rows_eq
  have hp : (shown .noAgg .demoScale config).prepare [.dense d] scalars =
      .ok ⟨.dense d, ⟨[], scalars, d.cols, none⟩, d.rows, d.cols, false⟩ := rfl
  have hp' : (shown .noAgg .demoScale config).prepare [.sparse (.ofDense d)] scalars =
      .ok ⟨.sparse (.ofDense d), ⟨[], scalars, d.cols, none⟩, (Sparse.ofDense d).rows, d.cols, false⟩ := rfl
  constructor
  · rw [execute_eq hp, runFresh_puts hp rfl rfl fun i hi => ⟨?_, Kernel.demoScale_puts_dense d i⟩]
    · exact congrArg _ (assembled_mapCells hd rfl rfl _)
    · rw [Array.size_map]
      exact hd.size_row hi
  · have hputs : ∀ i < (Sparse.ofDense d).rows,
        ((d.row i).map fun v => if isNonZero v then v * scalars.head?.getD (Cell.ofNat 1) else zero).size = d.cols ∧
        Kernel.demoScale.Puts ⟨[], scalars, d.cols, none⟩ (.ofSparse (.ofDense d) i)
          ((d.row i).map fun v => if isNonZero v then v * scalars.head?.getD (Cell.ofNat 1) else zero) := by
      intro i hi
      have hi' : i < d.rows := hrows ▸ hi
      rw [Array.size_map, Dense.visit_ofDense hi']
      exact ⟨hd.size_row hi', Kernel.demoScale_puts_sparse (hd.size_row hi')⟩
    rw [execute_eq hp', runFresh_puts hp' rfl rfl hputs]
    have hblock : (Block.sparse (Sparse.ofDense d)).rows = d.rows := hrows
    rw [hblock]
    exact congrArg _ (assembled_mapCells hd hrows rfl _)

/-- **Sums over both forms of a block** are the same. -/
theorem execute_demoSums [NeutralZeros α] {t : RowType} {k : Kernel α} (hk : Kernel.demo? t = some k) (ht : t ≠ .noAgg)
    (config : RunConfig) (d : Dense α) (hd : d.Sized) (scalars : List α) :
    ∃ out, (shown t k config).execute [.dense d] scalars = .ok out ∧
      (shown t k config).execute [.sparse (.ofDense d)] scalars = .ok out := by
  cases t <;> cases hk
  case noAgg => exact absurd rfl ht
  case fullAgg =>
    have hp : (shown .fullAgg .rowSum config).prepare [.dense d] scalars =
      .ok ⟨.dense d, ⟨[], scalars, d.cols, none⟩, 1, 1, false⟩ := rfl
    exact execute_alike hp rfl (fun i _ => Kernel.rowSum_writesAlike rfl le_rfl) NeutralZeros.absorbs_zero
  case rowAgg =>
    have hp : (shown .rowAgg .rowSum config).prepare [.dense d] scalars =
      .ok ⟨.dense d, ⟨[], scalars, d.cols, none⟩, d.rows, 1, false⟩ := rfl
    refine execute_alike hp rfl (fun i hi => Kernel.rowSum_writesAlike rfl ?_) NeutralZeros.absorbs_zero
    simpa [shown, offset, RowType.writesRows] using hi
  case colAgg =>
    have hp : (shown .colAgg .demoColSum config).prepare [.dense d] scalars =
      .ok ⟨.dense d, ⟨[], scalars, d.cols, none⟩, 1, d.cols, false⟩ := rfl
    refine execute_alike hp rfl (fun i hi => Kernel.demoColSum_writesAlike rfl (hd.size_row hi) ?_)
      NeutralZeros.absorbs_zero
    simp [shown, offset, RowType.writesRows]
  case colAggT =>
    have hp : (shown .colAggT .demoColSum config).prepare [.dense d] scalars =
      .ok ⟨.dense d, ⟨[], scalars, d.cols, none⟩, d.cols, 1, false⟩ := rfl
    refine execute_alike hp rfl (fun i hi => Kernel.demoColSum_writesAlike rfl (hd.size_row hi) ?_)
      NeutralZeros.absorbs_zero
    simp [shown, offset, RowType.writesRows]

/-- **Both forms of a block under the kernels of the command line.** For every row type that has a kernel, every dense
block and all scalars, the runs over the block and over the sparse block of its cells that are not zero succeed.
- If the row type sums up, both return the same block, down to the signs of its zeros.
- If it scales, the dense run scales all cells, and the sparse run puts the positive zero for a cell that is zero.
- So both are the same exactly if the row type sums up or every zero cell meets a finite scalar of its own sign. -/
theorem shown_forms_eq_iff {t : RowType} {k : Kernel Float} (hk : Kernel.demo? t = some k) (config : RunConfig)
    (d : Dense Float) (hd : d.Sized) (scalars : List Float) :
    let s := scalars.head?.getD (Cell.ofNat 1)
    ∃ out out', (shown t k config).execute [.dense d] scalars = .ok out ∧
      (shown t k config).execute [.sparse (.ofDense d)] scalars = .ok out' ∧
      (t ≠ .noAgg → out' = out) ∧
      (t = .noAgg → out = d.mapCells (· * s) ∧ out' = d.mapCells fun v => if isNonZero v then v * s else zero) ∧
      (out' = out ↔
        (t = .noAgg → ∀ v ∈ d.values, isZero v = true → s.isFinite = true ∧ isNegative v = isNegative s)) := by
  intro s
  by_cases ht : t = .noAgg
  · subst ht
    cases hk
    obtain ⟨hdense, hsparse⟩ := execute_demoScale config d hd scalars
    refine ⟨_, _, hdense, hsparse, fun h => absurd rfl h, fun _ => ⟨rfl, rfl⟩, ?_⟩
    rw [Dense.mapCells_eq_iff, forall_prop_of_true rfl]
    refine forall₂_congr fun v _ => ?_
    -- a cell that is not zero is scaled in both forms
    cases hv : isZero v with
    | true =>
      rw [if_neg (by simp [isNonZero, hv]), forall_prop_of_true rfl, ← zero_mul_eq_iff hv]
      exact eq_comm
    | false => exact iff_of_true (if_pos (by simp [isNonZero, hv])) (by rintro ⟨⟩)
  · obtain ⟨out, hdense, hsparse⟩ := execute_demoSums hk ht config d hd scalars
    exact ⟨out, out, hdense, hsparse, fun _ => rfl, fun h => absurd h ht, iff_of_true rfl fun h => absurd h ht⟩

def zeroAndTwo : Dense Float := ⟨1, 2, #[.ofBits 0, .ofBits 0x4000000000000000], 1⟩

def scaling : Fused Float := shown .noAgg .demoScale { maxTasks := 1 }

def summing : Fused Float := shown .fullAgg .rowSum { maxTasks := 1 }

/-- doubled, the row is the same from both forms; times minus one it is not, as the dense form gives a negative zero;
and its sum is the same -/
theorem zero_and_two_in_both_forms :
    scaling.execute [.sparse (.ofDense zeroAndTwo)] [.ofBits 0x4000000000000000] =
      scaling.execute [.dense zeroAndTwo] [.ofBits 0x4000000000000000] ∧
    scaling.execute [.sparse (.ofDense zeroAndTwo)] [.ofBits 0xbff0000000000000] ≠
      scaling.execute [.dense zeroAndTwo] [.ofBits 0xbff0000000000000] ∧
    summing.execute [.sparse (.ofDense zeroAndTwo)] [] = summing.execute [.dense zeroAndTwo] [] := by
  obtain ⟨doubled, doubled', hdense₁, hsparse₁, -, -, hsame₁⟩ := shown_forms_eq_iff (t := .noAgg) rfl { maxTasks := 1 }
    zeroAndTwo rfl [.ofBits 0x4000000000000000]
  obtain ⟨turned, turned', hdense₂, hsparse₂, -, -, hsame₂⟩ := shown_forms_eq_iff (t := .noAgg) rfl { maxTasks := 1 }
    zeroAndTwo rfl [.ofBits 0xbff0000000000000]
  obtain ⟨total, total', hdense₃, hsparse₃, hsum, -⟩ := shown_forms_eq_iff (t := .fullAgg) rfl { maxTasks := 1 }
    zeroAndTwo rfl []
  refine ⟨hsparse₁.trans (.trans (congrArg _ (hsame₁.2 fun _ => ?_)) hdense₁.symm), fun h => ?_,
    hsparse₃.trans (.trans (congrArg _ (hsum (by decide))) hdense₃.symm)⟩
  · decide
  · have hsame := Except.ok.inj (hsparse₂.symm.trans (h.trans hdense₂))
    have hsign := hsame₂.1 hsame rfl (.ofBits 0) (by simp [zeroAndTwo]) (by decide)
    exact absurd hsign.2 (by decide)

/-- an infinite factor: the zero cell of the dense row is no number, and that of the sparse row is the zero that the
window was cleared with -/
theorem zero_and_two_times_infinity :
    ¬ ∀ (t : RowType) (k : Kernel Float), Kernel.demo? t = some k → ∀ (config : RunConfig) (d : Dense Float)
      (scalars : List Float), d.Sized →
        (shown t k config).execute [.sparse (.ofDense d)] scalars = (shown t k config).execute [.dense d] scalars := by
  intro h
  have hsame := h .noAgg .demoScale rfl { maxTasks := 1 } zeroAndTwo [.ofBits 0x7ff0000000000000] rfl
  revert hsame
  decide +kernel

end Fused

end MatrixEngine
