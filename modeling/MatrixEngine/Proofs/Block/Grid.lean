/-
Matrices as the cells they have, apart from any representation.

A grid has a cell for every position; two numbers count as the same if they are equal as data or zeros of any sign. A
well-formed block stands for the grid of its cells as they are read one by one, and decoding the block shows that grid
(`WellFormed.toDense_shows`).
-/
import MatrixEngine.Block.Basic
import MatrixEngine.Proofs.Block.Compression
import MatrixEngine.Proofs.Block.SparseCells

namespace MatrixEngine

open Cell

/-- the cells of a matrix -/
structure Grid (α : Type) where
  rows : Nat
  cols : Nat
  cell : Nat → Nat → α

variable {α : Type} [Cell α]

/-- the same number: equal as data, or zeros of any sign -/
def SameNumber (a b : α) : Prop := a = b ∨ isZero a = true ∧ isZero b = true

theorem SameNumber.refl (a : α) : SameNumber a a := Or.inl rfl

theorem SameNumber.trans {a b c : α} (h : SameNumber a b) (h' : SameNumber b c) : SameNumber a c := by
  rcases h with rfl | ⟨ha, hb⟩
  · exact h'
  · rcases h' with rfl | ⟨-, hc⟩
    · exact Or.inr ⟨ha, hb⟩
    · exact Or.inr ⟨ha, hc⟩

theorem SameNumber.symm {a b : α} (h : SameNumber a b) : SameNumber b a := by
  rcases h with rfl | ⟨ha, hb⟩
  · exact .refl a
  · exact Or.inr ⟨hb, ha⟩

theorem SameNumber.eq_of_one_zero {a b : α} (h : SameNumber a b) (hzero : ∀ v : α, isZero v = true → v = zero) :
    a = b := by
  rcases h with rfl | ⟨ha, hb⟩
  · rfl
  · exact (hzero a ha).trans (hzero b hb).symm

/-- a dense block has the dimensions and the cells of a grid, up to the sign of zeros -/
structure Dense.Shows (d : Dense α) (a : Grid α) : Prop where
  rows : d.rows = a.rows
  cols : d.cols = a.cols
  sized : d.Sized
  cell : ∀ i < a.rows, ∀ j < a.cols, SameNumber (d.cell i j) (a.cell i j)

theorem Dense.Shows.square_iff {d : Dense α} {a : Grid α} (h : d.Shows a) : d.rows = d.cols ↔ a.rows = a.cols := by
  rw [h.rows, h.cols]

/-- the diagonal of a block, as a column -/
def Dense.diagonalGrid (d : Dense α) : Grid α := ⟨d.rows, 1, fun i _ => d.cell i i⟩

theorem Dense.Shows.diagonal {d out : Dense α} {a : Grid α} (h : d.Shows a) (hsquare : a.rows = a.cols)
    (hout : out.Shows d.diagonalGrid) : out.Shows ⟨a.rows, 1, fun i _ => a.cell i i⟩ := by
  refine ⟨hout.rows.trans h.rows, hout.cols, hout.sized, fun i hi j hj => ?_⟩
  have hrow : i < d.rows := h.rows.symm ▸ hi
  exact (hout.cell i hrow j hj).trans (h.cell i hi i (hsquare ▸ hi))

/-- writes into zeros that agree with a function of the position show a grid that has the values of the function where
something is written, and zeros elsewhere -/
theorem Dense.writes_show {β : Type} {row col : β → Nat} {val : β → α} {entries : List β} {f : Nat → Nat → α}
    {a : Grid α} (hcol : ∀ e ∈ entries, col e < a.cols) (hval : ∀ e ∈ entries, val e = f (row e) (col e))
    (hwritten : ∀ i < a.rows, ∀ j < a.cols, (i, j) ∈ entries.map (fun e => (row e, col e)) →
      SameNumber (f i j) (a.cell i j))
    (helse : ∀ i < a.rows, ∀ j < a.cols, (i, j) ∉ entries.map (fun e => (row e, col e)) →
      isZero (a.cell i j) = true) :
    (entries.foldl (fun d e => d.set (row e) (col e) (val e)) (Dense.zeros a.rows a.cols)).recount.Shows a := by
  have hsized : (Dense.zeros a.rows a.cols : Dense α).Sized := sized_zeros a.rows a.cols
  obtain ⟨hrows, hcols, -⟩ := foldl_set_eq row col val entries (Dense.zeros a.rows a.cols)
  refine ⟨hrows, hcols, hsized.foldl_set entries, fun i hi j hj => ?_⟩
  have hcell : (entries.foldl (fun d e => d.set (row e) (col e) (val e)) (Dense.zeros a.rows a.cols)).recount.cell i j =
      if (i, j) ∈ entries.map (fun e => (row e, col e)) then f i j else (Dense.zeros a.rows a.cols).cell i j :=
    hsized.cell_foldl_set hcol hval hi hj
  rw [hcell]
  split_ifs with hmem
  · exact hwritten i hi j hj hmem
  · rw [cell_zeros]
    exact Or.inr ⟨isZero_zero, helse i hi j hj hmem⟩

namespace Block

theorem rows_toDense (b : Block α) : b.toDense.rows = b.rows := by
  cases b <;> rfl

theorem cols_toDense (b : Block α) : b.toDense.cols = b.cols := by
  cases b <;> rfl

variable [DecidableEq α]

/-- a block as its constructors make it: all cells in the buffer, a layout without fault, or a dense block compressed -/
def WellFormed : Block α → Prop
  | dense d => d.Sized
  | sparse s => Sparse.layoutFault? s.rows s.cols s.starts s.indexes s.values = none
  | compressed c => ∃ d width, Dense.Sized d ∧ Compressed.ofDense d width = .ok c

/-- the matrix a block stands for, read cell by cell -/
def grid (b : Block α) : Grid α := ⟨b.rows, b.cols, fun i j => (b.get? i j).getD zero⟩

/-- **A well-formed block decodes to the matrix it stands for**, in any representation. -/
theorem WellFormed.toDense_shows {b : Block α} (h : b.WellFormed) : b.toDense.Shows b.grid := by
  cases b with
  | dense d => exact ⟨rfl, rfl, h, fun i _ j _ => .refl _⟩
  | sparse s =>
    have hlaid : s.LaidOut := Sparse.layoutFault?_eq_none_iff.1 h
    refine ⟨rfl, rfl, s.sized_toDense, fun i hi j hj => Or.inl ?_⟩
    have hcell : s.toDense.cell i j = s.cell i j := by rw [Dense.cell, hlaid.cell_toDense hi hj, Option.getD_some]
    exact hcell
  | compressed c =>
    obtain ⟨d, width, hd, hc⟩ := h
    obtain ⟨-, hrows, hcols, -, -⟩ := Compressed.ofDense_ok hc
    have hdense : (compressed c).toDense = ⟨d.rows, d.cols, d.values, c.nnz⟩ := Compressed.toDense_ofDense hc hd
    rw [hdense]
    refine ⟨hrows.symm, hcols.symm, hd, fun i hi j hj => Or.inl ?_⟩
    have hget : (compressed c).get? i j = some (d.cell i j) :=
      Compressed.get?_ofDense hc (hrows ▸ hi) (hcols ▸ hj)
    simp only [grid, hget, Option.getD_some]
    rfl

end Block

end MatrixEngine
