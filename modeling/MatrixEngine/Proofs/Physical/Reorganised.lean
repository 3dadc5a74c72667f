/-
What the reorganisations compute, as changes of grids.

`Reorg.meaning?` says what a reorganisation is on paper and where it is defined. The direct operators do exactly that
(`reorganise_computes`), and so does the chain that extracts, sorts and sums keyed cells for the diagonal of a matrix
(`diagonalChain_computes`): it drops zeros on the way, but a cell without a value is zero (`diagonalChain_shows`).
-/
import MatrixEngine.Proofs.Block.Conversion
import MatrixEngine.Proofs.Physical.KeyedSums

namespace MatrixEngine

open Cell

variable {α : Type} [Cell α]

/-- the elements of a vector along the diagonal of a square, and zero elsewhere -/
def Grid.alongDiagonal (a : Grid α) : Grid α where
  rows := max a.rows a.cols
  cols := max a.rows a.cols
  cell i j := if i = j ∧ i < a.rows * a.cols then (if a.rows = 1 then a.cell 0 i else a.cell i 0) else zero

/-- what a reorganisation makes of a matrix, if it is defined there -/
def Reorg.meaning? (op : Reorg) (a : Grid α) : Option (Grid α) :=
  match op with
  | .transpose => some ⟨a.cols, a.rows, fun i j => a.cell j i⟩
  | .diagToMatrix => if a.rows = 1 ∨ a.cols = 1 then some a.alongDiagonal else none
  | .diagToVector => if a.rows = a.cols then some ⟨a.rows, 1, fun i _ => a.cell i i⟩ else none

/-- a computation ends as its meaning says: with a block that shows the meaning, or with an error if there is none -/
def Computes (r : Except EvalError (Dense α)) : Option (Grid α) → Prop
  | some a => ∃ d, r = .ok d ∧ d.Shows a
  | none => ∃ e, r = .error e

/-! ## Direct operators -/

namespace Value

variable {d : Dense α} {a : Grid α}

theorem transpose_shows (h : d.Shows a) : d.transpose.Shows ⟨a.cols, a.rows, fun i j => a.cell j i⟩ := by
  refine ⟨h.cols, h.rows, h.sized.transpose, fun i hi j hj => ?_⟩
  have hget : d.transpose.get? i j = d.get? j i := Dense.get?_transpose h.sized (h.cols ▸ hi) (h.rows ▸ hj)
  have hcell : d.transpose.cell i j = d.cell j i := by rw [Dense.cell, hget]; rfl
  rw [hcell]
  exact h.cell j hj i hi

theorem vector_element (h : d.Shows a) (hv : a.rows = 1 ∨ a.cols = 1) {i : Nat} (hi : i < a.rows * a.cols) :
    d.values[i]? = some (if a.rows = 1 then d.cell 0 i else d.cell i 0) := by
  have hlt : i < d.values.size := by rw [h.sized, h.rows, h.cols]; exact hi
  have hsome : d.values[i]? = some (d.values[i]?.getD zero) := by rw [Array.getElem?_eq_getElem hlt, Option.getD_some]
  rw [hsome]
  split_ifs with hr
  · simp [Dense.cell, Dense.get?, Dense.pos]
  · have hc : d.cols = 1 := h.cols.trans (hv.resolve_left hr)
    simp [Dense.cell, Dense.get?, Dense.pos, hc]

theorem diagToMatrix_shows (h : d.Shows a) (hv : a.rows = 1 ∨ a.cols = 1) :
    ∃ out, diagToMatrix d = .ok out ∧ out.Shows a.alongDiagonal := by
  have hvector : ¬(a.rows ≠ 1 ∧ a.cols ≠ 1) := by omega
  set entries := d.values.toList.zipIdx with hentries
  have hmem : ∀ {v : α} {i : Nat}, (v, i) ∈ entries ↔ d.values[i]? = some v := by
    intro v i
    rw [hentries, List.mem_zipIdx_iff_getElem?, Array.getElem?_toList]
  have hlt : ∀ {i : Nat} {v : α}, d.values[i]? = some v → i < a.rows * a.cols := by
    intro i v hi
    have hsize := (Array.getElem?_eq_some_iff.1 hi).1
    rwa [h.sized, h.rows, h.cols] at hsize
  have hrun : diagToMatrix d =
      .ok (entries.foldl (fun d e => d.set e.2 e.2 e.1)
        (Dense.zeros (max a.rows a.cols) (max a.rows a.cols))).recount := by
    unfold diagToMatrix
    rw [h.rows, h.cols, if_neg hvector]
  refine ⟨_, hrun, Dense.writes_show (a := a.alongDiagonal) (f := fun i _ => d.values.getD i zero) ?_ ?_ ?_ ?_⟩
  · rintro ⟨v, i⟩ he
    have hi := hlt (hmem.1 he)
    rcases hv with hr | hc
    · rw [hr, Nat.one_mul] at hi
      exact hi.trans_le (Nat.le_max_right _ _)
    · rw [hc, Nat.mul_one] at hi
      exact hi.trans_le (Nat.le_max_left _ _)
  · rintro ⟨v, i⟩ he
    rw [Array.getD_eq_getD_getElem?, hmem.1 he, Option.getD_some]
  · intro i _ j _ hin
    obtain ⟨⟨v, r⟩, he, hr⟩ := List.mem_map.1 hin
    obtain ⟨rfl, rfl⟩ := Prod.mk.inj hr
    have hi := hlt (hmem.1 he)
    rw [Array.getD_eq_getD_getElem?, vector_element h hv hi, Option.getD_some]
    simp only [Grid.alongDiagonal, hi, and_self, if_true]
    split_ifs with hr
    · exact h.cell 0 (by omega) r (by rwa [hr, Nat.one_mul] at hi)
    · have hc := hv.resolve_left hr
      exact h.cell r (by rwa [hc, Nat.mul_one] at hi) 0 (by omega)
  · intro i _ j _ hout
    have hoff : ¬(i = j ∧ i < a.rows * a.cols) := by
      rintro ⟨rfl, hi⟩
      exact hout (List.mem_map.2 ⟨(_, i), hmem.2 (vector_element h hv hi), rfl⟩)
    simp only [Grid.alongDiagonal, if_neg hoff]
    exact isZero_zero

theorem diagonal_eq (hsquare : d.rows = d.cols) : diagonal d = .ok ((List.range d.rows).map fun i => d.cell i i) :=
  if_pos hsquare

theorem diagonal_error (hne : d.rows ≠ d.cols) : diagonal d = .error (.notSquare d.rows d.cols) := if_neg hne

/-- a column with the dimensions and, up to the sign of zeros, the cells of the diagonal -/
theorem column_shows {out : Dense α} (hrows : out.rows = d.rows) (hcols : out.cols = 1) (hsized : out.Sized)
    (hcell : ∀ i < d.rows, SameNumber (out.cell i 0) (d.cell i i)) : out.Shows d.diagonalGrid := by
  refine ⟨hrows, hcols, hsized, fun i hi j hj => ?_⟩
  obtain rfl : j = 0 := Nat.lt_one_iff.1 hj
  exact hcell i hi

theorem diagToVector_shows (hsquare : d.rows = d.cols) :
    ∃ out, diagToVector d = .ok out ∧ out.Shows d.diagonalGrid ∧ out.nnz = countNonZero out.values := by
  set vs := (List.range d.rows).map fun i => d.cell i i with hvs
  refine ⟨⟨d.rows, 1, vs.toArray, countNonZero vs.toArray⟩, ?_, column_shows rfl rfl ?_ fun i hi => Or.inl ?_, rfl⟩
  · rw [diagToVector, diagonal_eq hsquare]
    rfl
  · simp [Dense.Sized, hvs]
  · simp [Dense.cell, Dense.get?, Dense.pos, hi, hvs]

theorem diagToVector_error (hne : d.rows ≠ d.cols) : diagToVector d = .error (.notSquare d.rows d.cols) := by
  rw [diagToVector, diagonal_error hne]
  rfl

/-- **A direct operator computes its meaning.** -/
theorem reorganise_computes (h : d.Shows a) (op : Reorg) : Computes (reorganise op d) (op.meaning? a) := by
  cases op with
  | transpose => exact ⟨_, rfl, transpose_shows h⟩
  | diagToMatrix =>
    by_cases hv : a.rows = 1 ∨ a.cols = 1
    · rw [Reorg.meaning?, if_pos hv]
      exact diagToMatrix_shows h hv
    · rw [Reorg.meaning?, if_neg hv]
      have hmatrix : d.rows ≠ 1 ∧ d.cols ≠ 1 := by
        rw [h.rows, h.cols]
        exact not_or.1 hv
      exact ⟨_, if_pos hmatrix⟩
  | diagToVector =>
    by_cases hsquare : a.rows = a.cols
    · rw [Reorg.meaning?, if_pos hsquare]
      obtain ⟨out, hok, hout, -⟩ := diagToVector_shows (h.square_iff.2 hsquare)
      exact ⟨out, hok, h.diagonal hsquare hout⟩
    · rw [Reorg.meaning?, if_neg hsquare]
      exact ⟨_, diagToVector_error (mt h.square_iff.1 hsquare)⟩

/-! ## The diagonal by keyed cells -/

theorem diagonalCells_eq (hsquare : d.rows = d.cols) :
    diagonalCells d =
      .ok (((List.range d.rows).map fun i => ⟨i, 0, d.cell i i⟩).filter fun c => isNonZero c.value) := by
  have hzip : (((List.range d.rows).map fun i => d.cell i i).zipIdx.map fun p => (⟨p.2, 0, p.1⟩ : KeyedCell α)) =
      (List.range d.rows).map fun i => ⟨i, 0, d.cell i i⟩ := by
    refine List.ext_getElem (by simp) fun k hk hk' => ?_
    simp
  rw [← hzip]
  unfold diagonalCells
  rw [diagonal_eq hsquare]
  rfl

/-- what is summed for a row among these is its cell of the diagonal, or the one zero of the type -/
theorem keyTotal_diagonal (hsum : ∀ v : α, sumStart + v = v) {i : Nat} (hi : i < d.rows) :
    keyTotal (((List.range d.rows).map fun i => ⟨i, 0, d.cell i i⟩).filter fun c => isNonZero c.value) i 0 =
      kept (d.cell i i) := by
  have hkeyed : keyed ((List.range d.rows).map fun k => (⟨k, 0, d.cell k k⟩ : KeyedCell α)) i 0 =
      [⟨i, 0, d.cell i i⟩] := by
    have hone : (List.range d.rows).filter (· == i) = [i] := by
      rw [List.filter_beq, List.count_eq_one_of_mem List.nodup_range (List.mem_range.2 hi)]
      rfl
    simp [keyed, List.filter_map, Function.comp_def, hone]
  unfold keyTotal
  rw [keyed, List.filter_comm, ← keyed, hkeyed]
  cases hv : isNonZero (d.cell i i) with
  | true => simp [hv, kept_of_isNonZero, Cell.sum, hsum]
  | false =>
    have hzero : isZero (d.cell i i) = true := by simpa [isNonZero] using hv
    simp [hv, kept_of_isZero hzero]

/-- **The chain of keyed cells keeps the diagonal of a square**, if adding to the empty sum changes nothing. -/
theorem diagonalChain_shows (hsum : ∀ v : α, sumStart + v = v) (hsquare : d.rows = d.cols) :
    ∃ out, (do sumRuns (sortByKey (← diagonalCells d)) d.rows 1) = .ok out ∧ out.Shows d.diagonalGrid ∧
      out.nnz = countNonZero out.values := by
  have hinside : ∀ c ∈ ((List.range d.rows).map fun i => (⟨i, 0, d.cell i i⟩ : KeyedCell α)).filter
      fun c => isNonZero c.value, c.row < d.rows ∧ c.col < 1 := by
    intro c hc
    obtain ⟨i, hi, rfl⟩ := List.mem_map.1 (List.mem_filter.1 hc).1
    exact ⟨List.mem_range.1 hi, Nat.one_pos⟩
  obtain ⟨out, hok, hrows, hcols, hsized, hnnz, hcells⟩ := sumRuns_inside hinside
  refine ⟨out, ?_, column_shows hrows hcols hsized fun i hi => ?_, hnnz⟩
  · rw [diagonalCells_eq hsquare]
    exact hok
  · rw [hcells i hi 0 Nat.one_pos, keyTotal_diagonal hsum hi]
    exact sameNumber_kept _

theorem diagonalChain_error (hne : d.rows ≠ d.cols) (rows cols : Nat) :
    (do sumRuns (sortByKey (← diagonalCells d)) rows cols) = .error (.notSquare d.rows d.cols) := by
  rw [diagonalCells, diagonal_error hne]
  rfl

/-- **The chain of keyed cells computes the diagonal**, if adding to the empty sum changes nothing. -/
theorem diagonalChain_computes (hsum : ∀ v : α, sumStart + v = v) (h : d.Shows a) :
    Computes (do sumRuns (sortByKey (← diagonalCells d)) a.rows 1) (Reorg.meaning? .diagToVector a) := by
  by_cases hsquare : a.rows = a.cols
  · rw [Reorg.meaning?, if_pos hsquare, ← h.rows]
    obtain ⟨out, hok, hout, -⟩ := diagonalChain_shows hsum (h.square_iff.2 hsquare)
    exact ⟨out, hok, h.rows ▸ h.diagonal hsquare hout⟩
  · rw [Reorg.meaning?, if_neg hsquare]
    exact ⟨_, diagonalChain_error (mt h.square_iff.1 hsquare) a.rows 1⟩

end Value

end MatrixEngine
