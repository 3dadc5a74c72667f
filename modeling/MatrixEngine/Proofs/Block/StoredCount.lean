/-
The stored count of a dense block over any changes that a caller makes through the block.

A cell that is overwritten moves the stored count and the true one alike (`adjustCount_add`), so the count stays as far
above the truth as it was. Relabelling the dimensions is the one change that puts it there, and counting anew, by a
reset or a recount, brings it back.
- `tallied_apply`: a change keeps the buffer at its size and the count at or above the truth.
- `exact_apply`, `exact_of_countsAnew`: a change other than a relabelling keeps an exact count exact, and counting anew
  makes it exact.
- `run_counts`: so it is over every history of changes.
-/
import MatrixEngine.Proofs.Block.NonZeros

namespace MatrixEngine

open Cell

variable {α : Type} [Cell α]

/-! ## Counts of a buffer -/

/-- a cell that is overwritten moves the count by what it was and what it becomes -/
theorem countNonZero_set (vs : Array α) {k : Nat} (hk : k < vs.size) (v : α) :
    countNonZero (vs.set k v) + (if isNonZero vs[k] then 1 else 0) =
      countNonZero vs + if isNonZero v then 1 else 0 := by
  have hpos : isNonZero vs[k] = true → 0 < countNonZero vs := by
    intro hold
    rw [countNonZero, Array.countP_pos_iff]
    exact ⟨vs[k], Array.getElem_mem hk, hold⟩
  rw [countNonZero, Array.countP_set hk, ← countNonZero]
  split_ifs at hpos ⊢ with hold
  · have := hpos hold
    omega
  · have := hpos hold
    omega
  · omega
  · omega

namespace Dense

/-- the stored count moves as the true one does -/
theorem adjustCount_add {vs : Array α} {nnz k : Nat} (hk : k < vs.size) (h : countNonZero vs ≤ nnz) (v : α) :
    adjustCount nnz vs[k] v + countNonZero vs = nnz + countNonZero (vs.set k v) := by
  have hset := countNonZero_set vs hk v
  unfold adjustCount
  cases hold : isZero vs[k] <;> cases hv : isZero v <;> simp [isNonZero, hold, hv] at hset ⊢ <;> omega

theorem Sized.countNonZero_transpose {d : Dense α} (h : d.Sized) :
    countNonZero d.transpose.values = countNonZero d.values := by
  have hshows : d.Shows ⟨d.rows, d.cols, d.cell⟩ := ⟨rfl, rfl, h, fun i _ j _ => .refl _⟩
  rw [hshows.countNonZero_eq, (Value.transpose_shows hshows).countNonZero_eq, Grid.nonZeros_transpose]

end Dense

/-! ## One change -/

namespace Dense

/-- a block as its constructors make it -/
inductive Made : Dense α → Prop where
  | zeros (rows cols : Nat) : Made (.zeros rows cols)
  | ofValues {rows cols : Nat} {values : Array α} {d : Dense α} (h : Dense.ofValues rows cols values = .ok d) : Made d
  | ofRows {rows : List (List α)} {d : Dense α} (h : Dense.ofRows rows = .ok d) : Made d

/-- all cells are there, and no fewer of them are counted than are not zero -/
structure Tallied (d : Dense α) : Prop where
  sized : d.Sized
  upper : countNonZero d.values ≤ d.nnz

/-- all cells are there, and as many of them are counted as are not zero -/
structure Exact (d : Dense α) : Prop where
  sized : d.Sized
  exact : d.nnz = countNonZero d.values

theorem Exact.tallied {d : Dense α} (h : d.Exact) : d.Tallied := ⟨h.sized, h.exact.ge⟩

theorem exact_zeros (rows cols : Nat) : (zeros rows cols : Dense α).Exact := by
  refine ⟨sized_zeros rows cols, ?_⟩
  simp [zeros, Cell.zeros, countNonZero, Array.countP_replicate, isNonZero]

theorem exact_ofValues {rows cols : Nat} {values : Array α} {d : Dense α} (h : ofValues rows cols values = .ok d) :
    d.Exact := by
  unfold ofValues at h
  split_ifs at h with hsize
  obtain rfl := Except.ok.inj h
  exact ⟨hsize, rfl⟩

theorem Made.exact {d : Dense α} (h : d.Made) : d.Exact := by
  cases h with
  | zeros rows cols => exact exact_zeros rows cols
  | ofValues h => exact exact_ofValues h
  | ofRows h =>
    unfold Dense.ofRows at h
    simp only at h
    split_ifs at h
    exact exact_ofValues h

/-- an overwritten cell leaves all cells there, and the count as far from the truth as it was -/
theorem Tallied.set {d : Dense α} (h : d.Tallied) {i j : Nat} (hcell : d.pos i + j < d.values.size) (v : α) :
    (d.set i j v).Sized ∧ (d.set i j v).nnz + countNonZero d.values = d.nnz + countNonZero (d.set i j v).values := by
  obtain ⟨rows, cols, values, nnz⟩ := d
  have hk : i * cols + j < values.size := hcell
  have hset : (⟨rows, cols, values, nnz⟩ : Dense α).set i j v =
      ⟨rows, cols, values.set (i * cols + j) v, adjustCount nnz values[i * cols + j] v⟩ := by
    unfold Dense.set
    simp only [hk, dite_true]
  rw [hset]
  constructor
  · exact (Array.size_set hk).trans h.sized
  · exact adjustCount_add hk h.upper v

theorem Sized.tallied_swapDims {d : Dense α} (h : d.Sized) : d.swapDims.Tallied := by
  have hsize : d.values.size = d.cols * d.rows := h.trans (Nat.mul_comm _ _)
  constructor
  · exact hsize
  · exact Array.countP_le_size.trans hsize.le

end Dense

namespace DenseOp

/-- the changes that see to the count; writing to the buffer and stating a count leave it to the caller -/
def keepsCount : DenseOp α → Bool
  | put _ _ | withCount _ => false
  | _ => true

/-- the changes that count the cells anew -/
def countsAnew : DenseOp α → Bool
  | reset _ _ | recount => true
  | _ => false

/-- the change that relabels the dimensions -/
def relabels : DenseOp α → Bool
  | swapDims => true
  | _ => false

/-- the cell that is addressed, if there is one, lies in the buffer -/
def InBuffer (d : Dense α) : DenseOp α → Prop
  | set i j _ => d.pos i + j < d.values.size
  | put k _ => k < d.values.size
  | _ => True

variable {d d' : Dense α} {op : DenseOp α} {ops : List (DenseOp α)}

/-- a change is carried out exactly if the cell it addresses lies in the buffer -/
theorem exists_apply_iff : (∃ d', op.apply d = some d') ↔ op.InBuffer d := by
  cases op with
  | set i j v => simp [apply, InBuffer, Dense.holds]
  | put k v => simp [apply, InBuffer]
  | _ => simp [apply, InBuffer]

theorem apply_set_eq_some {i j : Nat} {v : α} :
    (set i j v).apply d = some d' ↔ d.pos i + j < d.values.size ∧ d.set i j v = d' := by
  simp [apply, Dense.holds]

/-- **A change that sees to the count** keeps all cells there and the count at or above the truth. -/
theorem tallied_apply (h : d.Tallied) (hop : op.keepsCount = true) (hrun : op.apply d = some d') : d'.Tallied := by
  cases op with
  | set i j v =>
    obtain ⟨hin, rfl⟩ := apply_set_eq_some.1 hrun
    obtain ⟨hsized, hcount⟩ := h.set hin v
    have hupper := h.upper
    exact ⟨hsized, by omega⟩
  | put k v => cases hop
  | reset rows cols =>
    obtain rfl := Option.some.inj hrun
    exact (Dense.exact_zeros rows cols).tallied
  | withCount nnz => cases hop
  | recount =>
    obtain rfl := Option.some.inj hrun
    exact ⟨h.sized, le_rfl⟩
  | swapDims =>
    obtain rfl := Option.some.inj hrun
    exact h.sized.tallied_swapDims
  | transpose =>
    obtain rfl := Option.some.inj hrun
    exact ⟨h.sized.transpose, h.sized.countNonZero_transpose.trans_le h.upper⟩

/-- counting anew is exact, whatever was counted before -/
theorem exact_of_countsAnew (h : d.Sized) (hop : op.countsAnew = true) (hrun : op.apply d = some d') : d'.Exact := by
  cases op with
  | reset rows cols =>
    obtain rfl := Option.some.inj hrun
    exact Dense.exact_zeros rows cols
  | recount =>
    obtain rfl := Option.some.inj hrun
    exact ⟨h, rfl⟩
  | _ => cases hop

/-- **A change that sees to the count and does not relabel** keeps an exact count exact. -/
theorem exact_apply (h : d.Exact) (hop : op.keepsCount = true) (hlabels : op.relabels = false)
    (hrun : op.apply d = some d') : d'.Exact := by
  cases op with
  | set i j v =>
    obtain ⟨hin, rfl⟩ := apply_set_eq_some.1 hrun
    obtain ⟨hsized, hcount⟩ := h.tallied.set hin v
    have hexact := h.exact
    exact ⟨hsized, by omega⟩
  | put k v => cases hop
  | reset rows cols => exact exact_of_countsAnew h.sized rfl hrun
  | withCount nnz => cases hop
  | recount => exact exact_of_countsAnew h.sized rfl hrun
  | swapDims => cases hlabels
  | transpose =>
    obtain rfl := Option.some.inj hrun
    exact ⟨h.sized.transpose, h.exact.trans h.sized.countNonZero_transpose.symm⟩

/-! ## Histories of changes -/

/-- the block after changes in order; none if one of them addresses a cell outside of the buffer -/
def run (d : Dense α) (ops : List (DenseOp α)) : Option (Dense α) := ops.foldlM apply d

/-- every change of a history addresses cells of the buffer that it meets -/
def AllInBuffer : Dense α → List (DenseOp α) → Prop
  | _, [] => True
  | d, op :: ops => op.InBuffer d ∧ ∀ d', op.apply d = some d' → AllInBuffer d' ops

/-- the dimensions were not relabelled since the block was made or its cells were last counted anew -/
def Settled (ops : List (DenseOp α)) : Prop :=
  ∃ before after, ops = before ++ after ∧ (∀ op, before.getLast? = some op → op.countsAnew = true) ∧
    ∀ op ∈ after, op.relabels = false

theorem run_cons_eq_some : run d (op :: ops) = some d' ↔ ∃ e, op.apply d = some e ∧ run e ops = some d' := by
  simp only [run, List.foldlM_cons, Option.bind_eq_bind, Option.bind_eq_some_iff]

theorem run_append_eq_some {before after : List (DenseOp α)} :
    run d (before ++ after) = some d' ↔ ∃ e, run d before = some e ∧ run e after = some d' := by
  simp only [run, List.foldlM_append, Option.bind_eq_bind, Option.bind_eq_some_iff]

/-- a history is carried out to its end exactly if its changes address cells of the buffer -/
theorem exists_run_iff : (∃ d', run d ops = some d') ↔ AllInBuffer d ops := by
  induction ops generalizing d with
  | nil => exact iff_of_true ⟨d, rfl⟩ trivial
  | cons op ops ih =>
    constructor
    · rintro ⟨d', hrun⟩
      obtain ⟨e, hop, hrest⟩ := run_cons_eq_some.1 hrun
      refine ⟨exists_apply_iff.1 ⟨e, hop⟩, fun e' hop' => ?_⟩
      obtain rfl := Option.some.inj (hop.symm.trans hop')
      exact ih.1 ⟨d', hrest⟩
    · rintro ⟨hin, hrest⟩
      obtain ⟨e, hop⟩ := exists_apply_iff.2 hin
      obtain ⟨d', hrun⟩ := ih.2 (hrest e hop)
      exact ⟨d', run_cons_eq_some.2 ⟨e, hop, hrun⟩⟩

theorem tallied_run (h : d.Tallied) (hops : ∀ op ∈ ops, op.keepsCount = true) (hrun : run d ops = some d') :
    d'.Tallied := by
  induction ops generalizing d with
  | nil =>
    obtain rfl := Option.some.inj hrun
    exact h
  | cons op ops ih =>
    obtain ⟨e, hop, hrest⟩ := run_cons_eq_some.1 hrun
    have hnext := tallied_apply h (hops op List.mem_cons_self) hop
    exact ih hnext (fun x hx => hops x (List.mem_cons_of_mem op hx)) hrest

theorem exact_run (h : d.Exact) (hops : ∀ op ∈ ops, op.keepsCount = true) (hlabels : ∀ op ∈ ops, op.relabels = false)
    (hrun : run d ops = some d') : d'.Exact := by
  induction ops generalizing d with
  | nil =>
    obtain rfl := Option.some.inj hrun
    exact h
  | cons op ops ih =>
    obtain ⟨e, hop, hrest⟩ := run_cons_eq_some.1 hrun
    have hnext := exact_apply h (hops op List.mem_cons_self) (hlabels op List.mem_cons_self) hop
    refine ih hnext ?_ ?_ hrest
    · intro x hx
      exact hops x (List.mem_cons_of_mem op hx)
    · intro x hx
      exact hlabels x (List.mem_cons_of_mem op hx)

/-- where nothing was relabelled since the cells were counted, the count is exact -/
theorem exact_of_settled (h : d.Exact) (hops : ∀ op ∈ ops, op.keepsCount = true) (hsettled : Settled ops)
    (hrun : run d ops = some d') : d'.Exact := by
  obtain ⟨before, after, rfl, hlast, hlabels⟩ := hsettled
  obtain ⟨e, hbefore, hafter⟩ := run_append_eq_some.1 hrun
  have hkept : ∀ op ∈ after, op.keepsCount = true := fun op hop => hops op (List.mem_append_right before hop)
  have hexact : e.Exact := by
    rcases List.eq_nil_or_concat before with rfl | ⟨init, op, rfl⟩
    · obtain rfl := Option.some.inj hbefore
      exact h
    · rw [List.concat_eq_append] at hbefore hlast hops
      obtain ⟨d₀, hinit, hop⟩ := run_append_eq_some.1 hbefore
      have hsized : d₀.Sized := by
        refine (tallied_run h.tallied (fun x hx => hops x ?_) hinit).sized
        exact List.mem_append_left after (List.mem_append_left [op] hx)
      obtain ⟨e', hop', hend⟩ := run_cons_eq_some.1 hop
      obtain rfl := Option.some.inj hend
      exact exact_of_countsAnew hsized (hlast op (by simp)) hop'
  exact exact_run hexact hkept hlabels hafter

/-- **The stored count of a block.** However a block is made and then changed through cells of its buffer, by resets,
recounts, relabellings and transpositions, in any order and number: the buffer has a cell for every position and no
others, no fewer cells are counted than are not zero, and exactly these are counted if the dimensions were not
relabelled since the block was made or its cells were last counted anew. -/
theorem run_counts (hd : d.Made) (hops : ∀ op ∈ ops, op.keepsCount = true) (hcells : AllInBuffer d ops) :
    ∃ d', run d ops = some d' ∧ d'.values.size = d'.rows * d'.cols ∧ countNonZero d'.values ≤ d'.nnz ∧
      (Settled ops → d'.nnz = countNonZero d'.values) := by
  obtain ⟨d', hrun⟩ := exists_run_iff.2 hcells
  have htallied := tallied_run hd.exact.tallied hops hrun
  refine ⟨d', hrun, htallied.sized, htallied.upper, fun hsettled => ?_⟩
  exact (exact_of_settled hd.exact hops hsettled hrun).exact

/-- a cell that is no number, a negative zero, a one and a zero -/
def mixedCells : Dense Float :=
  ⟨2, 2, #[.ofBits 0x7ff8000000000000, .ofBits 0x8000000000000000, .ofBits 0x3ff0000000000000, .ofBits 0], 2⟩

/-- the cell that is no number becomes a negative zero under relabelled dimensions, and comes back at the other end
after a recount -/
def relabelledAndRecounted : List (DenseOp Float) :=
  [.swapDims, .set 0 0 (.ofBits 0x8000000000000000), .recount, .transpose, .set 1 1 (.ofBits 0x7ff8000000000000)]

/-- between the relabelling and the recount three cells are counted where one is not zero, and at the end the two that
are not zero -/
theorem recount_settles_relabelled :
    (∃ d, run mixedCells (relabelledAndRecounted.take 2) = some d ∧ d.nnz = 3 ∧ countNonZero d.values = 1) ∧
    ∃ d, run mixedCells relabelledAndRecounted = some d ∧ d.nnz = 2 ∧ countNonZero d.values = 2 := by
  have hvalues : Dense.ofValues 2 2 mixedCells.values = .ok mixedCells := by decide +kernel
  have hmade : mixedCells.Made := .ofValues hvalues
  have hops : ∀ op ∈ relabelledAndRecounted, op.keepsCount = true := by
    simp [relabelledAndRecounted, keepsCount]
  have hcells : AllInBuffer mixedCells relabelledAndRecounted := by
    rw [← exists_run_iff]
    exact ⟨_, rfl⟩
  have hsettled : Settled relabelledAndRecounted := by
    refine ⟨relabelledAndRecounted.take 3, relabelledAndRecounted.drop 3, rfl, ?_, ?_⟩
    · rintro op ⟨⟩
      rfl
    · simp [relabelledAndRecounted, relabels]
  refine ⟨⟨_, rfl, by decide +kernel, by decide +kernel⟩, ?_⟩
  obtain ⟨d, hrun, -, -, hexact⟩ := run_counts hmade hops hcells
  have hcount : (run mixedCells relabelledAndRecounted).map (·.nnz) = some 2 := by decide +kernel
  rw [hrun] at hcount
  have hnnz : d.nnz = 2 := Option.some.inj hcount
  exact ⟨d, hrun, hnnz, (hexact hsettled).symm.trans hnnz⟩

end DenseOp

end MatrixEngine
