/-
Runs that are refused before a row has written.

An incremental run lays its output out as the kernel writes it before it asks for scratch vectors and before the first
row, and lays it out as the caller reads it at its end only. So a run that stops on the way leaves the layout that the
kernel writes (`runSerial_refused`). Where the two layouts are one, the caller's cells are all there; where the output is
flipped, the buffer is the transposed one under the labels of before, and the cells are in their places only if they read
the same along columns and along rows (`executeInto_refused`).
-/
import MatrixEngine.Proofs.Rowwise.Incremental
import MatrixEngine.Rowwise.Kernels.Probe

namespace MatrixEngine

open Cell

variable {α : Type}

/-- a run over visits that stops before a row has changed the output cells -/
inductive Fused.StopsUnwritten (op : Fused α) (p : Prepared α) {cells : Nat} :
    List (Visit α) → RowState α cells → Prop where
  | stop {v : Visit α} {visits : List (Visit α)} {s s' : RowState α cells} {e : Stop KernelError} :
      op.kernel.step p.env v (op.offset p.cols 0 v.row) s = .error e s' → s'.out = s.out →
      StopsUnwritten op p (v :: visits) s
  | pass {v : Visit α} {visits : List (Visit α)} {s s' : RowState α cells} :
      op.kernel.step p.env v (op.offset p.cols 0 v.row) s = .ok () s' → s'.out = s.out →
      StopsUnwritten op p visits s' → StopsUnwritten op p (v :: visits) s

namespace Dense

variable [Cell α]

/-- the place that the cell of a place comes from, if the buffer is transposed and the labels stay -/
def turnedPlace (rows cols i j : Nat) : Nat × Nat := ((i * cols + j) % rows, (i * cols + j) / rows)

theorem turnedPlace_lt {rows cols i j : Nat} (hi : i < rows) (hj : j < cols) :
    (turnedPlace rows cols i j).1 < rows ∧ (turnedPlace rows cols i j).2 < cols := by
  have hlt : i * cols + j < rows * cols := rowMajor_lt hi hj
  exact ⟨Nat.mod_lt _ (by omega), Nat.div_lt_of_lt_mul hlt⟩

theorem get?_transpose_swapDims {d : Dense α} (h : d.Sized) {i j : Nat} (hi : i < d.rows) (hj : j < d.cols) :
    d.transpose.swapDims.get? i j =
      d.get? (turnedPlace d.rows d.cols i j).1 (turnedPlace d.rows d.cols i j).2 := by
  obtain ⟨hrow, hcol⟩ := turnedPlace_lt hi hj
  rw [← get?_transpose h hcol hrow]
  have hplace : (turnedPlace d.rows d.cols i j).2 * d.rows + (turnedPlace d.rows d.cols i j).1 = i * d.cols + j :=
    Nat.div_add_mod' _ _
  change d.transpose.values[i * d.cols + j]? =
    d.transpose.values[(turnedPlace d.rows d.cols i j).2 * d.rows + (turnedPlace d.rows d.cols i j).1]?
  rw [hplace]

/-- the transposed buffer is the buffer itself if each cell equals the one that comes into its place -/
theorem transpose_values_iff {d : Dense α} (h : d.Sized) :
    d.transpose.values = d.values ↔ ∀ i < d.rows, ∀ j < d.cols,
      d.get? (turnedPlace d.rows d.cols i j).1 (turnedPlace d.rows d.cols i j).2 = d.get? i j := by
  constructor
  · intro hsame i hi j hj
    rw [← get?_transpose_swapDims h hi hj, get?, get?]
    change d.transpose.values[d.pos i + j]? = _
    rw [hsame]
  · intro hcell
    have hturned : d.transpose.swapDims.Sized := by
      rw [Sized, swapDims, h.transpose, Nat.mul_comm]
    change d.transpose.swapDims.values = d.values
    refine h.values_ext hturned rfl rfl fun i hi j hj => ?_
    rw [get?_transpose_swapDims h hi hj, hcell i hi j hj]

/-- a single column reads the same along columns and along rows -/
theorem transpose_values_of_column {d : Dense α} (h : d.Sized) (hcols : d.cols ≤ 1) :
    d.transpose.values = d.values := by
  refine (transpose_values_iff h).2 fun i hi j hj => ?_
  obtain rfl : j = 0 := by omega
  have hcol : d.cols = 1 := by omega
  simp [turnedPlace, hcol, Nat.mod_eq_of_lt hi, Nat.div_eq_of_lt hi]

end Dense

namespace Fused

variable {op : Fused α} {p : Prepared α}

theorem runVisits_unwritten {cells : Nat} {visits : List (Visit α)} {s : RowState α cells}
    (h : op.StopsUnwritten p visits s) : ∃ e s', op.runVisits p 0 visits s = .error e s' ∧ s'.out = s.out := by
  induction h with
  | @stop v visits s s' e hstep hout =>
    refine ⟨e, s', ?_, hout⟩
    rw [runVisits_cons, hstep]
  | @pass v visits s s' hstep hout _ ih =>
    obtain ⟨e, s'', hrun, hout'⟩ := ih
    refine ⟨e, s'', ?_, hout'.trans hout⟩
    rw [runVisits_cons, hstep]
    exact hrun

variable [Cell α]

/-- a run in a register that stops before a row has written: there are no scratch vectors for it, or its rows stop -/
inductive Refused (op : Fused α) (p : Prepared α) (opts : RunOptions) (reg : Register α) : Prop where
  | scratch {e : MemoryError} : opts.useScratch = false → op.taskScratch p.env = .error e → Refused op p opts reg
  | rows {scratch : Scratch α} : (if opts.useScratch then .ok reg.scratch else op.taskScratch p.env) = .ok scratch →
      op.StopsUnwritten p (p.main.visits ⟨0, p.main.rows⟩)
        (⟨(openOutput p opts.incremental reg.out).values.toVector, scratch⟩ : RowState α _) → Refused op p opts reg

/-- a run over rows that stops before one has written leaves its output as it was -/
theorem runOver_unwritten {out : Dense α} {scratch : Scratch α}
    (h : op.StopsUnwritten p (p.main.visits ⟨0, p.main.rows⟩) (⟨out.values.toVector, scratch⟩ : RowState α _)) :
    ∃ e used, op.runOver p out scratch = .error e ⟨out, used⟩ := by
  obtain ⟨rows, cols, values, nnz⟩ := out
  obtain ⟨e, s, hrun, hout⟩ := runVisits_unwritten h
  refine ⟨e, s.scratch, ?_⟩
  unfold runOver
  simp only [runRows_eq, hrun, hout]

/-- a refused run ends in an error and leaves the output as it was opened -/
theorem runSerial_refused {opts : RunOptions} {reg : Register α} (h : op.Refused p opts reg) :
    ∃ e reg', op.runSerial p opts reg = .error e reg' ∧ reg'.out = openOutput p opts.incremental reg.out := by
  obtain ⟨out, own⟩ := reg
  cases h with
  | @scratch e hown hnone =>
    refine ⟨.fault (.memory e), ⟨openOutput p opts.incremental out, own⟩, ?_, rfl⟩
    unfold runSerial
    simp only [hown, hnone, Bool.false_eq_true, if_false]
  | @rows scratch hs hrows =>
    obtain ⟨e, used, hover⟩ := runOver_unwritten hrows
    refine ⟨liftStop e, ⟨openOutput p opts.incremental out, if opts.useScratch then used else own⟩, ?_, rfl⟩
    unfold runSerial
    simp only [hs, hover]

/-- an accumulator of the output's shape is opened in the layout that the kernel writes -/
theorem openOutput_incremental {out : Dense α} (hrows : out.rows = p.rows) (hcols : out.cols = p.cols) :
    openOutput p true out = if p.flip then out.transpose.swapDims else out := by
  unfold openOutput
  simp [hrows, hcols]

/-- **What a refused incremental run leaves of an accumulator.** A run onto an output of the right shape that stops before
a row has written ends in an error and keeps the shape. The cells stay in their places if the output is not flipped or has
one column at most; a flipped one is left with its buffer transposed under the labels of before. So the cells are what
they were exactly if the output is not flipped or each cell equals the one that comes into its place. Only the outer
products with B1 are flipped, if they have more than 64 rows for each column. -/
theorem executeInto_refused (op : Fused α) (inputs : List (Block α)) (scalars : List α) (own : Bool) (reg : Register α)
    {p : Prepared α} (hp : op.prepare inputs scalars = .ok p) (hsized : reg.out.Sized)
    (hrows : reg.out.rows = p.rows) (hcols : reg.out.cols = p.cols)
    (h : op.Refused p { useScratch := own, incremental := true } reg) :
    ∃ e reg', op.executeInto inputs scalars { useScratch := own, incremental := true } reg = .error e reg' ∧
      reg'.out.rows = reg.out.rows ∧ reg'.out.cols = reg.out.cols ∧
      (p.flip = true ↔ op.rowType.isOuterB1 = true ∧ 64 * p.cols < p.rows) ∧
      (p.flip = false ∨ p.cols ≤ 1 → reg'.out.values = reg.out.values) ∧
      (reg'.out.values = reg.out.values ↔ (p.flip = true → ∀ i < p.rows, ∀ j < p.cols,
        reg.out.get? (Dense.turnedPlace p.rows p.cols i j).1 (Dense.turnedPlace p.rows p.cols i j).2 =
          reg.out.get? i j)) := by
  obtain ⟨e, reg', hrun, hout⟩ := runSerial_refused h
  have hopen := hout.trans (openOutput_incremental hrows hcols)
  have hflip : p.flip = true ↔ op.rowType.isOuterB1 = true ∧ 64 * p.cols < p.rows := by
    obtain ⟨-, -, -, hflip⟩ := prepare_ok hp
    simp [hflip, Write.flipsOuter]
  refine ⟨e, reg', (executeInto_eq hp _ reg).trans hrun, ?_, ?_, hflip, ?_, ?_⟩
  · rw [hopen]
    split_ifs <;> rfl
  · rw [hopen]
    split_ifs <;> rfl
  · rintro (hf | hone)
    · simp [hopen, hf]
    · rw [hopen]
      split_ifs
      · exact Dense.transpose_values_of_column hsized (hcols ▸ hone)
      · rfl
  · cases hf : p.flip with
    | false => simp [hopen, hf]
    | true =>
      rw [hopen, hf, if_pos rfl, ← hrows, ← hcols]
      exact (Dense.transpose_values_iff hsized).trans (by simp)

/-- column sums whose kernel needs a scratch vector that its budget does not cover -/
def starvedSums : Fused Int := ⟨.colAgg, .scaledColSum, none, false, 1, { maxTasks := 1, scratchBytes := 0 }⟩

/-- refused for want of a scratch vector, the sums so far are all there -/
theorem starved_sums_stay : ∃ e reg',
    starvedSums.executeInto [.dense ⟨1, 2, #[1, 2], 2⟩] [] { incremental := true } ⟨⟨1, 2, #[5, 7], 2⟩, .empty⟩ =
      .error e reg' ∧ reg'.out.values = #[5, 7] := by
  have hp : starvedSums.prepare [.dense ⟨1, 2, #[1, 2], 2⟩] [] =
      .ok ⟨.dense ⟨1, 2, #[1, 2], 2⟩, ⟨[], [], 2, none⟩, 1, 2, false⟩ := rfl
  obtain ⟨e, reg', hrun, -, -, -, hkept, -⟩ := executeInto_refused starvedSums [.dense ⟨1, 2, #[1, 2], 2⟩] [] false
    ⟨⟨1, 2, #[5, 7], 2⟩, .empty⟩ hp rfl rfl rfl (.scratch rfl rfl)
  exact ⟨e, reg', hrun, hkept (.inl rfl)⟩

/-- outer products of a row of 129 cells with one of two, by a kernel that fails at every row -/
def failingOuter : Fused Int := ⟨.colAggB1T, .failFrom 0, none, false, 0, { maxTasks := 1 }⟩

def countedCells : Dense Int := ⟨129, 2, ((List.range 258).map fun k => (k : Int) + 1).toArray, 258⟩

/-- its kernel refuses the first row and leaves the output cells alone, and the caller finds 3 where 2 was -/
theorem failing_outer_turns_cells :
    (∀ env v ci cells (s : RowState Int cells), ∃ e, failingOuter.kernel.step env v ci s = .error e s) ∧
    ∃ e reg', failingOuter.executeInto [.dense (wideRow 1), .dense sidePair] [] { incremental := true }
        ⟨countedCells, .empty⟩ = .error e reg' ∧
      reg'.out.rows = 129 ∧ reg'.out.cols = 2 ∧ countedCells.get? 0 1 = some 2 ∧ reg'.out.get? 0 1 = some 3 := by
  have hstep : ∀ env v ci cells (s : RowState Int cells), ∃ e, failingOuter.kernel.step env v ci s = .error e s :=
    fun _ _ _ _ _ => ⟨_, rfl⟩
  have hp : failingOuter.prepare [.dense (wideRow 1), .dense sidePair] [] =
      .ok ⟨.dense (wideRow 1), ⟨[.dense sidePair], [], 129, some 2⟩, 129, 2, true⟩ := rfl
  have hrefused : failingOuter.Refused ⟨.dense (wideRow 1), ⟨[.dense sidePair], [], 129, some 2⟩, 129, 2, true⟩
      { incremental := true } ⟨countedCells, .empty⟩ := .rows rfl (.stop rfl rfl)
  obtain ⟨e, reg', hrun, hout⟩ := runSerial_refused hrefused
  have hopen := hout.trans (openOutput_incremental rfl rfl)
  refine ⟨hstep, e, reg', (executeInto_eq hp _ _).trans hrun, ?_, ?_, by decide +kernel, ?_⟩ <;> rw [hopen, if_pos rfl]
  · rfl
  · rfl
  · decide +kernel

end Fused

end MatrixEngine
