/-
Two ways to the diagonal of a block.

The direct operator copies the diagonal into a column. The chain drops its zeros, keys and sorts what is left and sums
it into a fresh column, so it writes every cell that is not zero as it is and leaves the zero of the type elsewhere. Both
columns show the same diagonal, whatever lies on it, and both fail on a block that is not square (`diagonal_both_ways`).
-/
import MatrixEngine.Proofs.Block.NonZeros
import MatrixEngine.Proofs.EndToEnd
import MatrixEngine.Proofs.Plan.Complete

namespace MatrixEngine

open Cell

variable {α : Type} [Cell α]

theorem Dense.nonZeros_diagonalGrid (d : Dense α) :
    d.diagonalGrid.nonZeros = ((Finset.range d.rows).filter fun i => isNonZero (d.cell i i) = true).card := by
  rw [Grid.nonZeros_rowMajor]
  simp [diagonalGrid]

namespace Session

variable {bound : String → Option (Block α)} {s : Session α} {os : List Operator} {o : Operator}

/-- the value of the chain that lowering makes over an operator -/
theorem plain_diagonalChain {a : Operator} {d : Dense α} (ha : plain bound a = .ok (.matrix d)) {n : Node}
    {rows cols : Nat} (hdims : n.size.dims? = some (rows, cols)) {g g' : Graph}
    (h : Graph.diagonalChain a n g = .ok o g') :
    plain bound o = (do Value.sumRuns (Value.sortByKey (← Value.diagonalCells d)) rows cols).map .matrix := by
  obtain ⟨rfl, -⟩ := EStateM.Result.ok.inj h
  exact plain_chain (r := .ok d) ha hdims _ _ _ _ _ _ _ _ _

/-- an operator of a plan whose value is a matrix ends with this matrix, and one that has no value with its error -/
theorem eval_ended (hnumbers : Operator.NumbersTell os) (hmemo : SoundMemo (Operator.walkAll os) s)
    (ho : o ∈ Operator.walkAll os) {r : Except EvalError (Dense α)}
    (hplain : plain s.bindings.get? o = r.map .matrix) : ∃ s', eval o s = ended r s' := by
  obtain ⟨s', heval, -, -⟩ := eval_plain hnumbers o (Operator.walkAll_trans os o ho) s hmemo
  exact ⟨s', plainMatrix_of_plain hplain ▸ heval⟩

/-- **Both ways to the diagonal agree.** A block is bound in any representation, and a data operator reads it. In a
session with a sound memo, evaluate the chain that lowering makes over this operator, where the chain declares the
dimensions that are derived for the diagonal from those of the block, and the direct operator over it. If the block is
not square, both fail. Otherwise both end with a column that shows the diagonal, in the same numbers, and with the
number of cells of the diagonal that are not zero as their count. Adding to the empty sum must change nothing. -/
theorem diagonal_both_ways (hsum : ∀ v : α, sumStart + v = v) (hnumbers : Operator.NumbersTell os)
    (hmemo : SoundMemo (Operator.walkAll os) s) {name : String} {b : Block α}
    (hbound : s.bindings.get? name = some b) {declared dims output : SizeInfo}
    (hfits : Value.fitsDeclared declared b.rows b.cols = true) (hdims : dims.dims? = some (b.rows, b.cols))
    {data chain direct : Operator} {first second : Nat} {position position' : Position} {p : Placement} {g g' : Graph}
    {n : Node}
    (hsize : (n.size.rows, n.size.cols) =
      ((Reorg.diagToVector.outputSize dims).1, (Reorg.diagToVector.outputSize dims).2.1))
    (hdata : data = .data first name declared position) (hchain : Graph.diagonalChain data n g = .ok chain g')
    (hdirect : direct = .transform second data .diagToVector p output position')
    (hos : chain ∈ Operator.walkAll os) (hos' : direct ∈ Operator.walkAll os) :
    (b.rows ≠ b.cols →
      (∃ s', eval chain s = .error (.notSquare b.rows b.cols) s') ∧
      ∃ s', eval direct s = .error (.notSquare b.rows b.cols) s') ∧
    (b.rows = b.cols → ∃ d d' t t', eval chain s = .ok d t ∧ eval direct s = .ok d' t' ∧
      d.Shows b.toDense.diagonalGrid ∧ d'.Shows b.toDense.diagonalGrid ∧
      (∀ i < b.rows, SameNumber (d.cell i 0) (d'.cell i 0)) ∧ d.nnz = d'.nnz ∧
      d'.nnz = ((Finset.range b.rows).filter fun i => isNonZero (b.toDense.cell i i) = true).card) := by
  have hplain : plain s.bindings.get? data = .ok (.matrix b.toDense) := by
    rw [hdata]
    exact plain_bound hbound hfits first position
  have hcolumn : n.size.dims? = some (b.toDense.rows, 1) := by
    obtain ⟨hrows, -⟩ := SizeInfo.dims?_eq_some_iff.1 hdims
    rw [Reorg.outputSize, hrows, Prod.mk.injEq] at hsize
    rw [b.rows_toDense]
    exact SizeInfo.dims?_eq_some_iff.2 hsize
  have hcopied : plain s.bindings.get? direct = (Value.diagToVector b.toDense).map .matrix := by
    rw [hdirect]
    exact plain_transform (r := .ok b.toDense) hplain second .diagToVector p output position'
  obtain ⟨t, hcells⟩ := eval_ended hnumbers hmemo hos (plain_diagonalChain hplain hcolumn hchain)
  obtain ⟨t', hcopy⟩ := eval_ended hnumbers hmemo hos' hcopied
  rw [← b.rows_toDense, ← b.cols_toDense]
  constructor
  · intro hne
    rw [Value.diagonalChain_error hne] at hcells
    rw [Value.diagToVector_error hne] at hcopy
    exact ⟨⟨t, hcells⟩, t', hcopy⟩
  · intro hsquare
    obtain ⟨d, hd, hshows, hnnz⟩ := Value.diagonalChain_shows hsum hsquare
    obtain ⟨d', hd', hshows', hnnz'⟩ := Value.diagToVector_shows hsquare
    rw [hd] at hcells
    rw [hd'] at hcopy
    rw [hshows.countNonZero_eq] at hnnz
    rw [hshows'.countNonZero_eq] at hnnz'
    refine ⟨d, d', t, t', hcells, hcopy, hshows, hshows', fun i hi => ?_, hnnz.trans hnnz'.symm,
      hnnz'.trans b.toDense.nonZeros_diagonalGrid⟩
    exact (hshows.cell i hi 0 Nat.one_pos).trans (hshows'.cell i hi 0 Nat.one_pos).symm

def diagonalNode : Node :=
  { id := ⟨1⟩, name := "", kind := .reorg .diagToVector, size := ⟨some 2, some 1, 1000, 1000, none⟩, inputs := [⟨0⟩]
    parents := [], position := {} }

def readsSquare : Operator := .data 0 "X" ⟨some 2, some 2, 1000, 1000, none⟩ {}

def keysDiagonal : Operator :=
  ⟨1, .partialAggregate .diagToVector .col, .distributed, diagonalNode.size, some .none, {}, [readsSquare]⟩

def sortsDiagonal : Operator := .group 2 keysDiagonal .distributed diagonalNode.size {}

def sumsDiagonal : Operator := ⟨3, .aggregate .sum, .distributed, diagonalNode.size, some .none, {}, [sortsDiagonal]⟩

def copiesDiagonal : Operator := .transform 4 readsSquare .diagToVector .local diagonalNode.size {}

theorem numbered_diagonals :
    Operator.Numbered [copiesDiagonal, sumsDiagonal, sortsDiagonal, keysDiagonal, readsSquare] 5 := by
  have hdata : Operator.Numbered [readsSquare] 1 :=
    (Operator.Numbered.nil 0).cons rfl (by simp [readsSquare, Operator.data])
  have hkeys : Operator.Numbered [keysDiagonal, readsSquare] 2 := hdata.cons rfl (by simp [keysDiagonal])
  have hsorted : Operator.Numbered [sortsDiagonal, keysDiagonal, readsSquare] 3 :=
    hkeys.cons rfl (by simp [sortsDiagonal, Operator.group])
  have hsums : Operator.Numbered [sumsDiagonal, sortsDiagonal, keysDiagonal, readsSquare] 4 :=
    hsorted.cons rfl (by simp [sumsDiagonal])
  exact hsums.cons rfl (by simp [copiesDiagonal, Operator.transform])

/-- the diagonal of `[1, 2]` and `[3, 0]`, in which one cell is not zero -/
theorem both_diagonals_of_a_square :
    ∃ d d' t t', eval sumsDiagonal squareSession = .ok d t ∧ eval copiesDiagonal squareSession = .ok d' t' ∧
      d.cell 0 0 = 1 ∧ d.cell 1 0 = 0 ∧ d'.cell 0 0 = 1 ∧ d'.cell 1 0 = 0 ∧ d.nnz = 1 ∧ d'.nnz = 1 := by
  have hnumbers : Operator.NumbersTell [sumsDiagonal, copiesDiagonal] := by
    refine numbered_diagonals.numbersTell fun o ho => ?_
    rcases List.mem_pair.1 ho with rfl | rfl <;> simp
  have hmemo : SoundMemo (Operator.walkAll [sumsDiagonal, copiesDiagonal]) squareSession := by
    intro n v hv
    cases hv
  have hchain : Graph.diagonalChain readsSquare diagonalNode { nextOperator := 1 } =
      .ok sumsDiagonal { nextOperator := 4 } := rfl
  have hbound : squareSession.bindings.get? "X" = some (.dense ⟨2, 2, #[1, 2, 3, 0], 3⟩) := rfl
  have hdims : SizeInfo.dims? ⟨some 2, some 2, 1000, 1000, none⟩ = some (2, 2) := rfl
  have hdirect : copiesDiagonal = .transform 4 readsSquare .diagToVector .local diagonalNode.size {} := rfl
  obtain ⟨-, hboth⟩ := diagonal_both_ways Int.zero_add hnumbers hmemo hbound rfl hdims rfl rfl hchain hdirect
    (Operator.mem_walkAll (by simp)) (Operator.mem_walkAll (by simp))
  obtain ⟨d, d', t, t', hsums, hcopies, hshows, hshows', -, hnnz, hnnz'⟩ := hboth rfl
  have hone : d'.nnz = 1 := hnnz'.trans (by decide)
  refine ⟨d, d', t, t', hsums, hcopies, (hshows.cell 0 (by decide) 0 (by decide)).eq, ?_, ?_, ?_, hnnz.trans hone, hone⟩
  · exact (hshows.cell 1 (by decide) 0 (by decide)).eq
  · exact (hshows'.cell 0 (by decide) 0 (by decide)).eq
  · exact (hshows'.cell 1 (by decide) 0 (by decide)).eq

end Session

end MatrixEngine
