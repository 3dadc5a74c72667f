/-
How many cells of a matrix are not zero.

The cells are counted by their places, so the count is that of any arrangement of the same elements: of the transposed
matrix (`Grid.nonZeros_transpose`), and of a vector laid along a diagonal (`Grid.nonZeros_alongDiagonal`). Counted along
the rows it is what a block that shows the matrix counts in its buffer (`Dense.Shows.countNonZero_eq`).
-/
import MatrixEngine.Proofs.Physical.Reorganised

namespace MatrixEngine

open Cell

variable {α : Type} [Cell α]

namespace Grid

/-- the places of the cells that are not zero -/
def support (a : Grid α) : Finset (Nat × Nat) :=
  (Finset.range a.rows ×ˢ Finset.range a.cols).filter fun p => isNonZero (a.cell p.1 p.2) = true

/-- the number of cells that are not zero -/
def nonZeros (a : Grid α) : Nat := a.support.card

theorem mem_support {a : Grid α} {p : Nat × Nat} :
    p ∈ a.support ↔ p.1 < a.rows ∧ p.2 < a.cols ∧ isNonZero (a.cell p.1 p.2) = true := by
  simp [support, and_assoc]

theorem nonZeros_transpose (a : Grid α) :
    (⟨a.cols, a.rows, fun i j => a.cell j i⟩ : Grid α).nonZeros = a.nonZeros := by
  refine Finset.card_bij' (fun p _ => p.swap) (fun p _ => p.swap) (fun p hp => ?_) (fun p hp => ?_)
    (fun p _ => p.swap_swap) fun p _ => p.swap_swap
  · obtain ⟨hrow, hcol, hcell⟩ := mem_support.1 hp
    exact mem_support.2 ⟨hcol, hrow, hcell⟩
  · obtain ⟨hrow, hcol, hcell⟩ := mem_support.1 hp
    exact mem_support.2 ⟨hcol, hrow, hcell⟩

theorem nonZeros_rowMajor (a : Grid α) :
    a.nonZeros = ((Finset.range (a.rows * a.cols)).filter fun k =>
      isNonZero (a.cell (k / a.cols) (k % a.cols)) = true).card := by
  refine Finset.card_bij' (fun p _ => p.1 * a.cols + p.2) (fun k _ => (k / a.cols, k % a.cols)) (fun p hp => ?_)
    (fun k hk => ?_) (fun p hp => ?_) fun k _ => Nat.div_add_mod' k a.cols
  · obtain ⟨hrow, hcol, hcell⟩ := mem_support.1 hp
    rw [Finset.mem_filter, Finset.mem_range, rowMajor_div _ hcol, rowMajor_mod _ hcol]
    exact ⟨rowMajor_lt hrow hcol, hcell⟩
  · obtain ⟨hlt, hcell⟩ := Finset.mem_filter.1 hk
    rw [Finset.mem_range] at hlt
    have hpos : 0 < a.cols := Nat.pos_of_ne_zero fun h0 => by simp [h0] at hlt
    exact mem_support.2 ⟨Nat.div_lt_of_lt_mul (by rwa [Nat.mul_comm]), Nat.mod_lt k hpos, hcell⟩
  · obtain ⟨-, hcol, -⟩ := mem_support.1 hp
    rw [rowMajor_div _ hcol, rowMajor_mod _ hcol]

/-- laying a vector along a diagonal keeps the count: what is new is zero -/
theorem nonZeros_alongDiagonal {a : Grid α} (hv : a.rows = 1 ∨ a.cols = 1) :
    a.alongDiagonal.nonZeros = a.nonZeros := by
  have hplace : ∀ i < a.rows * a.cols, i < max a.rows a.cols ∧
      a.cell (i / a.cols) (i % a.cols) = if a.rows = 1 then a.cell 0 i else a.cell i 0 := by
    intro i hi
    by_cases hr : a.rows = 1
    · rw [hr, Nat.one_mul] at hi
      exact ⟨hi.trans_le (Nat.le_max_right _ _), by rw [if_pos hr, Nat.div_eq_of_lt hi, Nat.mod_eq_of_lt hi]⟩
    · have hc := hv.resolve_left hr
      rw [hc, Nat.mul_one] at hi
      exact ⟨hi.trans_le (Nat.le_max_left _ _), by rw [if_neg hr, hc, Nat.div_one, Nat.mod_one]⟩
  have hsupport : a.alongDiagonal.support = ((Finset.range (a.rows * a.cols)).filter fun k =>
      isNonZero (a.cell (k / a.cols) (k % a.cols)) = true).image fun k => (k, k) := by
    ext ⟨i, j⟩
    simp only [mem_support, alongDiagonal, Finset.mem_image, Finset.mem_filter, Finset.mem_range, Prod.mk.injEq]
    constructor
    · rintro ⟨-, -, hcell⟩
      split_ifs at hcell with hij hr
      · exact ⟨i, ⟨hij.2, by rwa [(hplace i hij.2).2, if_pos hr]⟩, rfl, hij.1⟩
      · exact ⟨i, ⟨hij.2, by rwa [(hplace i hij.2).2, if_neg hr]⟩, rfl, hij.1⟩
      · simp [isNonZero] at hcell
    · rintro ⟨k, ⟨hk, hcell⟩, rfl, rfl⟩
      obtain ⟨hlt, helement⟩ := hplace k hk
      refine ⟨hlt, hlt, ?_⟩
      rwa [if_pos ⟨rfl, hk⟩, ← helement]
  rw [nonZeros, hsupport, nonZeros_rowMajor, Finset.card_image_of_injective]
  exact fun i j h => (Prod.mk.inj h).1

end Grid

theorem SameNumber.isNonZero_eq {x y : α} (h : SameNumber x y) : isNonZero x = isNonZero y := by
  rcases h with rfl | ⟨hx, hy⟩
  · rfl
  · rw [isNonZero, isNonZero, hx, hy]

theorem countNonZero_eq_card (vs : Array α) :
    countNonZero vs = ((Finset.range vs.size).filter fun k => isNonZero (vs.getD k zero) = true).card := by
  have hlist : vs.toList = (List.range vs.size).map fun k => vs.getD k zero := by
    refine List.ext_getElem (by simp) fun k hk _ => ?_
    have hlt : k < vs.size := hk
    simp [Array.getD_eq_getD_getElem?, hlt]
  rw [countNonZero, ← Array.countP_toList, hlist, List.countP_map, List.countP_eq_length_filter, Finset.card_def,
    Finset.filter_val, Finset.range_val, Multiset.range, Multiset.filter_coe, Multiset.coe_card]
  simp only [Bool.decide_eq_true, Function.comp_def]

/-- **A block that shows a matrix counts its cells that are not zero.** -/
theorem Dense.Shows.countNonZero_eq {d : Dense α} {a : Grid α} (h : d.Shows a) :
    countNonZero d.values = a.nonZeros := by
  rw [countNonZero_eq_card, Grid.nonZeros_rowMajor, h.sized, h.rows, h.cols]
  congr 1
  refine Finset.filter_congr fun k hk => ?_
  rw [Finset.mem_range] at hk
  have hpos : 0 < a.cols := Nat.pos_of_ne_zero fun h0 => by simp [h0] at hk
  have hrow : k / a.cols < a.rows := Nat.div_lt_of_lt_mul (by rwa [Nat.mul_comm])
  have hcell : d.cell (k / a.cols) (k % a.cols) = d.values.getD k zero := by
    rw [Dense.cell, Dense.get?, Dense.pos, h.cols, Nat.div_add_mod', Array.getD_eq_getD_getElem?]
  rw [← hcell, (h.cell _ hrow _ (Nat.mod_lt k hpos)).isNonZero_eq]

end MatrixEngine
