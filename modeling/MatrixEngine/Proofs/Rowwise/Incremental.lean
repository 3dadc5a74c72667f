/-
Incremental runs: a run over some rows that goes on from the output of a run over others is one run over all of them.

Where a row acts on the output cells by a rule of its data alone, a run folds the rules of its rows over the cells, and
a fold over stacked rows is a fold over the upper ones and from there over the lower ones. In between the caller finds
the output closed, which may have been transposed; opening it again must give back the cells as the kernel left them.
- `openOutput_closeOutput`: a closed output opens to the same cells in the same places.
- `runSerial_folds`: a run in a register is a fold from the opened output, whatever scratch vectors it works with.
- `runSerial_twice`: a run and an incremental one fold over the rows of the first and then over those of the second.
- `executeInto_incremental`: two runs, the second incremental, leave the block of one run over the stacked rows.
-/
import MatrixEngine.Proofs.Rowwise.Accumulators

namespace MatrixEngine

open Cell

variable {α : Type}

/-! ## Stacked blocks -/

namespace Dense

/-- the rows of one block above those of another -/
def stack (a b : Dense α) : Dense α := ⟨a.rows + b.rows, a.cols, a.values ++ b.values, a.nnz + b.nnz⟩

theorem Sized.row_stack_left {a : Dense α} (h : a.Sized) (b : Dense α) {i : Nat} (hi : i < a.rows) :
    (a.stack b).row i = a.row i := by
  have hend : i * a.cols + a.cols ≤ a.values.size := by
    rw [h, ← Nat.succ_mul]
    exact Nat.mul_le_mul_right _ hi
  simp only [row, pos, stack]
  rw [Array.extract_append, Nat.sub_eq_zero_of_le hend, Array.extract_empty_of_stop_le_start (Nat.zero_le _),
    Array.append_empty]

theorem Sized.row_stack_right {a b : Dense α} (h : a.Sized) (hcols : b.cols = a.cols) (i : Nat) :
    (a.stack b).row (a.rows + i) = b.row i := by
  have hstart : (a.rows + i) * a.cols = a.values.size + i * a.cols := by rw [h, Nat.add_mul]
  simp only [row, pos, stack, hstart, hcols]
  rw [Array.extract_append, Array.extract_empty_of_size_le_start (Nat.le_add_right _ _), Array.empty_append,
    Nat.add_assoc, Nat.add_sub_cancel_left, Nat.add_sub_cancel_left]

variable [Cell α]

def visits (d : Dense α) : List (Visit α) := (Block.dense d).visits ⟨0, d.rows⟩

theorem visits_data (d : Dense α) : d.visits.map (·.data) = (List.range d.rows).map fun i => .dense (d.row i) := by
  have hall : d.visits = (List.range d.rows).map (Block.dense d).visit := Block.visits_all (.dense d)
  rw [hall, List.map_map]
  rfl

theorem Sized.visits_stack {a b : Dense α} (h : a.Sized) (hcols : b.cols = a.cols) :
    (a.stack b).visits.map (·.data) = a.visits.map (·.data) ++ b.visits.map (·.data) := by
  simp only [visits_data]
  rw [show (a.stack b).rows = a.rows + b.rows from rfl, List.range_add, List.map_append, List.map_map]
  congr 1
  · refine List.map_congr_left fun i hi => ?_
    rw [h.row_stack_left b (List.mem_range.1 hi)]
  · refine List.map_congr_left fun i _ => ?_
    rw [Function.comp_apply, h.row_stack_right hcols]

end Dense

/-! ## Runs in a register -/

/-- a call for a visit succeeds and turns the output cells into what `rule` makes of them and of the row's data, not of
its number nor of the scratch vectors, whatever calls for the visits left in these -/
def Kernel.Folds (k : Kernel α) (env : KernelEnv α) (visits : List (Visit α)) (arena : Scratch α) (cells : Nat)
    (rule : List α → RowData α → List α) : Prop :=
  k.Turns env visits arena cells fun v out => rule out v.data

namespace Fused

variable [Cell α] {op : Fused α} {p : Prepared α} {arena : Scratch α} {visits : List (Visit α)}
  {rule : List α → RowData α → List α}

/-- a run with a given output goes through the rows, and keeps the shape and the stated count of the output -/
theorem runOver_folds (hw : op.rowType.aggregates = true) {cells : Nat}
    (hk : op.kernel.Folds p.env visits arena cells rule) (hv : ∀ v ∈ p.main.visits ⟨0, p.main.rows⟩, v ∈ visits)
    {out : Dense α} (hsize : out.values.size = cells) {scratch : Scratch α}
    (hl : op.kernel.Lends p.env visits arena scratch) :
    ∃ vs used, op.runOver p out scratch = .ok () ⟨⟨out.rows, out.cols, vs, out.nnz⟩, used⟩ ∧ vs.size = cells ∧
      vs.toList = ((p.main.visits ⟨0, p.main.rows⟩).map (·.data)).foldl rule out.values.toList ∧
      op.kernel.Lends p.env visits arena used := by
  subst hsize
  obtain ⟨rows, cols, values, nnz⟩ := out
  obtain ⟨s, hrun, hout, hl'⟩ := runVisits_turns hw hk 0 hv ⟨values.toVector, scratch⟩ hl
  refine ⟨s.out.toArray, s.scratch, ?_, s.out.size_toArray, ?_, hl'⟩
  · unfold runOver
    simp only [runRows_eq, hrun]
  · rw [List.foldl_map]
    exact hout

/-- a run in a register folds the rule over the opened output and closes it -/
theorem runSerial_folds (hw : op.rowType.aggregates = true) {cells : Nat}
    (hk : op.kernel.Folds p.env visits arena cells rule) (hv : ∀ v ∈ p.main.visits ⟨0, p.main.rows⟩, v ∈ visits)
    (opts : RunOptions) (reg : Register α) {scratch : Scratch α}
    (hs : (if opts.useScratch then .ok reg.scratch else op.taskScratch p.env) = .ok scratch)
    (hl : op.kernel.Lends p.env visits arena scratch) {out : Dense α}
    (hopen : openOutput p opts.incremental reg.out = out) (hsize : out.values.size = cells) :
    ∃ vs used, op.runSerial p opts reg =
        .ok () ⟨closeOutput p opts.incremental ⟨out.rows, out.cols, vs, out.nnz⟩,
          if opts.useScratch then used else reg.scratch⟩ ∧
      vs.size = cells ∧ vs.toList = ((p.main.visits ⟨0, p.main.rows⟩).map (·.data)).foldl rule out.values.toList ∧
      op.kernel.Lends p.env visits arena used := by
  obtain ⟨vs, used, hrun, hvs, hfold, hl'⟩ := runOver_folds hw hk hv hsize hl
  refine ⟨vs, used, ?_, hvs, hfold, hl'⟩
  unfold runSerial
  simp only [hopen, hs, hrun]

/-! ## The output between runs -/

theorem closeOutput_withCount (incremental : Bool) (out : Dense α) (n : Nat) :
    closeOutput p incremental (out.withCount n) = closeOutput p incremental out := by
  unfold closeOutput
  cases p.flip <;> cases incremental <;> rfl

/-- an incremental run leaves what a run of its own would, but for the count, which it does not keep -/
theorem closeOutput_incremental (out : Dense α) :
    closeOutput p true out = (closeOutput p false out).withCount (p.rows * p.cols) := by
  unfold closeOutput
  cases p.flip <;> rfl

/-- **A closed output opens to what it was**: the layout that the caller finds is undone, whichever it is. -/
theorem openOutput_closeOutput (out : Dense α) (hrows : out.rows = p.rows) (hcols : out.cols = p.cols)
    (hsized : out.Sized) : ∃ n, openOutput p true (closeOutput p false out) = out.withCount n := by
  unfold openOutput closeOutput
  cases hf : p.flip with
  | false => exact ⟨countNonZero out.values, by simp [Dense.recount, Dense.withCount, hrows, hcols]⟩
  | true =>
    have hback : out.swapDims.transpose.transpose = out.swapDims := by
      refine Dense.Sized.transpose_transpose ?_
      rw [Dense.Sized, Dense.swapDims, hsized, Nat.mul_comm]
    refine ⟨out.rows * out.cols, ?_⟩
    have hopen : out.swapDims.transpose.recount.transpose.swapDims = out.withCount (out.rows * out.cols) := by
      calc out.swapDims.transpose.recount.transpose.swapDims
          = out.swapDims.transpose.transpose.swapDims := rfl
        _ = out.swapDims.swapDims := by rw [hback]
        _ = out.withCount (out.rows * out.cols) := rfl
    simpa [Dense.recount, Dense.transpose, Dense.swapDims, hrows, hcols] using hopen

/-! ## Two runs and one -/

theorem runFresh_folds (hw : op.rowType.aggregates = true) (ha : op.taskScratch p.env = .ok arena)
    (hk : op.kernel.Folds p.env visits arena (p.rows * p.cols) rule)
    (hv : ∀ v ∈ p.main.visits ⟨0, p.main.rows⟩, v ∈ visits) :
    ∃ vs : Array α, op.runFresh p = .ok (closeOutput p false ⟨p.rows, p.cols, vs, 0⟩) ∧ vs.size = p.rows * p.cols ∧
      vs.toList = ((p.main.visits ⟨0, p.main.rows⟩).map (·.data)).foldl rule (List.replicate (p.rows * p.cols) zero) := by
  obtain ⟨vs, used, hrun, hsize, hfold, -⟩ := runSerial_folds hw hk hv {} ⟨.zeros 0 0, .empty⟩ ha .acquired
    (show openOutput p false _ = .zeros p.rows p.cols from rfl) (Dense.sized_zeros _ _)
  refine ⟨vs, ?_, hsize, hfold.trans (by simp [Dense.zeros, zeros])⟩
  unfold runFresh
  rw [hrun]
  rfl

/-- an incremental run folds the rule over the cells of the run before, and leaves what one run with its cells would -/
theorem runSerial_again (hw : op.rowType.aggregates = true)
    (hk : op.kernel.Folds p.env visits arena (p.rows * p.cols) rule)
    (hv : ∀ v ∈ p.main.visits ⟨0, p.main.rows⟩, v ∈ visits) (own : Bool) {given scratch : Scratch α}
    (hs : (if own then .ok given else op.taskScratch p.env) = .ok scratch)
    (hl : op.kernel.Lends p.env visits arena scratch) {vs : Array α} (hsize : vs.size = p.rows * p.cols) :
    ∃ vs' reg, op.runSerial p { useScratch := own, incremental := true }
        ⟨closeOutput p false ⟨p.rows, p.cols, vs, 0⟩, given⟩ = .ok () reg ∧
      reg.out = (closeOutput p false ⟨p.rows, p.cols, vs', 0⟩).withCount (p.rows * p.cols) ∧
      vs'.toList = ((p.main.visits ⟨0, p.main.rows⟩).map (·.data)).foldl rule vs.toList := by
  obtain ⟨n, hopen⟩ := openOutput_closeOutput (p := p) ⟨p.rows, p.cols, vs, 0⟩ rfl rfl hsize
  obtain ⟨vs', used, hrun, -, hfold, -⟩ := runSerial_folds hw hk hv { useScratch := own, incremental := true }
    ⟨closeOutput p false ⟨p.rows, p.cols, vs, 0⟩, given⟩ hs hl hopen hsize
  refine ⟨vs', _, hrun, ?_, hfold⟩
  change closeOutput p true ((⟨p.rows, p.cols, vs', 0⟩ : Dense α).withCount n) = _
  rw [closeOutput_withCount, closeOutput_incremental]

/-- a run and then an incremental one over other rows fold the rule over zeros, the rows of the first run before those of
the second, and leave what one run with these cells would -/
theorem runSerial_twice (hw : op.rowType.aggregates = true) (ha : op.taskScratch p.env = .ok arena) (own₁ own₂ : Bool)
    (reg : Register α) (hk : ∀ start, start = arena ∨ (own₁ || own₂) = true ∧ start = reg.scratch →
      op.kernel.Folds p.env visits start (p.rows * p.cols) rule)
    (hv : ∀ v ∈ p.main.visits ⟨0, p.main.rows⟩, v ∈ visits) {b : Block α}
    (hb : ∀ v ∈ b.visits ⟨0, b.rows⟩, v ∈ visits) :
    ∃ vs reg₁ reg₂, op.runSerial p { useScratch := own₁ } reg = .ok () reg₁ ∧
      op.runSerial { p with main := b } { useScratch := own₂, incremental := true } reg₁ = .ok () reg₂ ∧
      reg₂.out = (closeOutput p false ⟨p.rows, p.cols, vs, 0⟩).withCount (p.rows * p.cols) ∧
      vs.toList = ((p.main.visits ⟨0, p.main.rows⟩ ++ b.visits ⟨0, b.rows⟩).map (·.data)).foldl rule
        (List.replicate (p.rows * p.cols) zero) := by
  obtain ⟨start₁, hs₁, hstart₁⟩ : ∃ start, (if own₁ then .ok reg.scratch else op.taskScratch p.env) = .ok start ∧
      (start = arena ∨ (own₁ || own₂) = true ∧ start = reg.scratch) := by
    cases own₁ with
    | true => exact ⟨_, rfl, .inr ⟨rfl, rfl⟩⟩
    | false => exact ⟨_, ha, .inl rfl⟩
  obtain ⟨vs₁, used₁, hrun₁, hsize₁, hfold₁, hl₁⟩ := runSerial_folds hw (hk start₁ hstart₁) hv
    { useScratch := own₁ } reg hs₁ .acquired (show openOutput p false _ = .zeros p.rows p.cols from rfl)
    (Dense.sized_zeros _ _)
  -- the second run finds the vectors of the register as the first one left them
  obtain ⟨start₂, scratch₂, hs₂, hl₂, hstart₂⟩ : ∃ start scratch,
      (if own₂ then .ok (if own₁ then used₁ else reg.scratch) else op.taskScratch p.env) = .ok scratch ∧
      op.kernel.Lends p.env visits start scratch ∧ (start = arena ∨ (own₁ || own₂) = true ∧ start = reg.scratch) := by
    cases own₂ with
    | false => exact ⟨arena, arena, ha, .acquired, .inl rfl⟩
    | true =>
      cases own₁ with
      | true => exact ⟨start₁, used₁, rfl, hl₁, hstart₁⟩
      | false => exact ⟨reg.scratch, reg.scratch, rfl, .acquired, .inr ⟨rfl, rfl⟩⟩
  obtain ⟨vs₂, reg₂, hrun₂, hout, hfold₂⟩ :=
    runSerial_again (p := { p with main := b }) hw (hk start₂ hstart₂) hb own₂ hs₂ hl₂ hsize₁
  refine ⟨vs₂, _, reg₂, hrun₁, hrun₂, hout, ?_⟩
  rw [List.map_append, List.foldl_append, hfold₂, hfold₁]
  simp [Dense.zeros, zeros]

theorem prepare_dense (hw : op.rowType.aggregates = true) {a b : Dense α} {rest : List (Block α)} {scalars : List α}
    (hp : op.prepare (.dense a :: rest) scalars = .ok p) (hcols : b.cols = a.cols) :
    op.prepare (.dense b :: rest) scalars = .ok { p with main := .dense b } := by
  rw [prepare_aggregates hw (show (Block.dense b).cols = (Block.dense a).cols from hcols), hp]
  rfl

/-- **An incremental run goes on where the last one ended.** A run over the rows of one block and an incremental run over
those of another leave the block that one run over all rows returns, the upper ones first: the same shape and the same
values, whether or not the output is transposed in between, with the number of cells for a count. Its cells are what the
rules of all rows, from top to bottom, make of zeros. The scratch vectors may be those of the register in either run,
whatever they hold. -/
theorem executeInto_incremental (op : Fused α) (a₁ a₂ : Dense α) (rest : List (Block α)) (scalars : List α)
    (own₁ own₂ : Bool) (reg : Register α) (rule : List α → RowData α → List α)
    (hw : op.rowType.aggregates = true) (hsized : a₁.Sized) (hcols : a₂.cols = a₁.cols)
    (hp : op.prepare (.dense a₁ :: rest) scalars = .ok p) (ha : op.taskScratch p.env = .ok arena)
    (hk : ∀ start, start = arena ∨ (own₁ || own₂) = true ∧ start = reg.scratch →
      op.kernel.Folds p.env (a₁.visits ++ a₂.visits ++ (a₁.stack a₂).visits) start (p.rows * p.cols) rule) :
    ∃ out reg₁ reg₂,
      op.execute (.dense (a₁.stack a₂) :: rest) scalars = .ok out ∧ out.rows = p.rows ∧ out.cols = p.cols ∧
      (∀ i < p.rows, ∀ j < p.cols, out.get? i j = (((a₁.visits ++ a₂.visits).map (·.data)).foldl rule
        (List.replicate (p.rows * p.cols) zero))[layoutIndex p i j]?) ∧
      op.executeInto (.dense a₁ :: rest) scalars { useScratch := own₁ } reg = .ok () reg₁ ∧
      op.executeInto (.dense a₂ :: rest) scalars { useScratch := own₂, incremental := true } reg₁ = .ok () reg₂ ∧
      reg₂.out = out.withCount (p.rows * p.cols) := by
  set visits := a₁.visits ++ a₂.visits ++ (a₁.stack a₂).visits
  have hmain : p.main = .dense a₁ := by
    obtain ⟨_, hinputs, -⟩ := prepare_ok hp
    exact (List.cons.inj hinputs).1.symm
  have hmem₁ : ∀ v ∈ p.main.visits ⟨0, p.main.rows⟩, v ∈ visits := by
    rw [hmain]
    exact fun v hv => List.mem_append_left _ (List.mem_append_left _ hv)
  have hmem₂ : ∀ v ∈ a₂.visits, v ∈ visits := fun v hv => List.mem_append_left _ (List.mem_append_right _ hv)
  have hmemₛ : ∀ v ∈ (a₁.stack a₂).visits, v ∈ visits := fun v hv => List.mem_append_right _ hv
  -- the three runs differ in their primary input only
  have hp₂ := prepare_dense hw hp hcols
  have hpₛ := prepare_dense hw hp (show (a₁.stack a₂).cols = a₁.cols from rfl)
  obtain ⟨vsₛ, hrunₛ, hsizeₛ, hfoldₛ⟩ :=
    runFresh_folds (p := { p with main := .dense (a₁.stack a₂) }) hw ha (hk arena (.inl rfl)) hmemₛ
  obtain ⟨vs₂, reg₁, reg₂, hrun₁, hrun₂, hout, hfold₂⟩ :=
    runSerial_twice (b := .dense a₂) hw ha own₁ own₂ reg hk hmem₁ hmem₂
  rw [hmain] at hfold₂
  change vs₂.toList = ((a₁.visits ++ a₂.visits).map (·.data)).foldl rule _ at hfold₂
  have hvs : vs₂ = vsₛ := by
    refine Array.toList_inj.1 ?_
    rw [hfold₂, List.map_append, ← hsized.visits_stack hcols]
    exact hfoldₛ.symm
  subst hvs
  have hlength : vs₂.toList.length = p.rows * p.cols := hsizeₛ
  obtain ⟨hrows, hcols', -, -, hcells⟩ := closeOutput_cells (p := p) hlength rfl
  refine ⟨closeOutput p false ⟨p.rows, p.cols, vs₂, 0⟩, reg₁, reg₂, (execute_eq hpₛ).trans hrunₛ, hrows, hcols', ?_,
    (executeInto_eq hp _ reg).trans hrun₁, (executeInto_eq hp₂ _ _).trans hrun₂, hout⟩
  intro i hi j hj
  rw [← hfold₂]
  exact hcells i hi j hj

end Fused

/-- spreading the sum of a row over some cells looks at the data of the row only -/
theorem Kernel.constSpread_folds [Cell α] {env : KernelEnv α} {visits : List (Visit α)} {arena : Scratch α}
    {cells : Nat} (h : spreadCols ≤ cells) :
    constSpread.Folds env visits arena cells fun out data => (List.range spreadCols).foldl
      (fun out k => out.modify k (· + Cell.sum data.values.toList * Cell.ofNat (k + 1))) out := by
  intro v _ s _
  obtain ⟨hfits, happly⟩ := Write.cells_at (fun k x => x + Cell.sum v.data.values.toList * Cell.ofNat (k + 1))
    (fun k hk => (List.mem_range.1 hk).trans_le h) s.out
  refine ⟨⟨_, s.scratch⟩, ?_, happly⟩
  simp only [constSpread, RowM.write, Nat.zero_add, hfits, if_true]

/-- the sums of two wide rows, spread over cells of a tall output -/
def spreadSums : Fused Int := ⟨.colAggB1T, .constSpread, none, false, 0, { maxTasks := 1 }⟩

/-- a row of 129 cells; beside a side input of two columns it makes an output of more than 64 rows for a column -/
def wideRow (v : Int) : Dense Int := ⟨1, 129, Array.replicate 129 v, 129⟩

def sidePair : Dense Int := ⟨1, 2, #[0, 0], 0⟩

/-- the second cell that the kernel writes, at twice the sum of `129 * 1` and `129 * 2`, is the second cell of the first
column: the output was transposed after the first run and turned back for the second one -/
theorem spread_sums_of_two_runs :
    (∃ p, spreadSums.prepare [.dense (wideRow 1), .dense sidePair] [] = .ok p ∧ p.flip = true) ∧
    ∃ out reg₁ reg₂,
      spreadSums.execute [.dense ((wideRow 1).stack (wideRow 2)), .dense sidePair] [] = .ok out ∧
      spreadSums.executeInto [.dense (wideRow 1), .dense sidePair] [] {} ⟨.zeros 0 0, .empty⟩ = .ok () reg₁ ∧
      spreadSums.executeInto [.dense (wideRow 2), .dense sidePair] [] { incremental := true } reg₁ = .ok () reg₂ ∧
      reg₂.out = out.withCount 258 ∧ reg₂.out.get? 1 0 = some 774 := by
  have hp : spreadSums.prepare [.dense (wideRow 1), .dense sidePair] [] =
      .ok ⟨.dense (wideRow 1), ⟨[.dense sidePair], [], 129, some 2⟩, 129, 2, true⟩ := rfl
  obtain ⟨out, reg₁, reg₂, hout, -, -, hcells, h₁, h₂, hsame⟩ := Fused.executeInto_incremental spreadSums (wideRow 1)
    (wideRow 2) [.dense sidePair] [] false false ⟨.zeros 0 0, .empty⟩ _ rfl (by simp [Dense.Sized, wideRow]) rfl hp rfl
    fun start _ => Kernel.constSpread_folds (by decide)
  refine ⟨⟨_, hp, rfl⟩, out, reg₁, reg₂, hout, h₁, h₂, hsame, ?_⟩
  rw [hsame]
  refine (hcells 1 (by decide) 0 (by decide)).trans ?_
  decide +kernel

end MatrixEngine
