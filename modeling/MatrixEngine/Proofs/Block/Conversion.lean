/-
Dense blocks made sparse, and sparse blocks made dense again.

`Sparse.ofDense` stores the cells that are not zero, row by row, so a zero of either sign comes back as the one zero of
the type and every other cell as it was (`kept`).
- `laidOut_ofDense`: the sparse block is laid out soundly.
- `get?_ofDense`, `get?_toDense_ofDense`: its cells, looked up and decoded, are the cells of the dense block.
- `pos_ofDense`: a row begins behind as many entries as there are cells that are not zero in front of it.
- `ofDense_toDense_ofDense`: decoding and storing again gives the same sparse block.
-/
import MatrixEngine.Proofs.Block.Grid
import MatrixEngine.Proofs.Block.Ownership

namespace MatrixEngine

open Cell

variable {α : Type} [Cell α]

/-- what storing only the cells that are not zero keeps of a cell -/
def kept (v : α) : α := if isZero v then zero else v

theorem kept_of_isNonZero {v : α} (h : isNonZero v = true) : kept v = v := by
  have hv : isZero v = false := by simpa [isNonZero] using h
  rw [kept, hv]
  rfl

theorem kept_of_isZero {v : α} (h : isZero v = true) : kept v = zero := if_pos h

@[simp] theorem isNonZero_kept (v : α) : isNonZero (kept v) = isNonZero v := by
  cases hv : isZero v with
  | true => simp [kept, isNonZero, hv]
  | false => simp [kept, isNonZero, hv]

theorem sameNumber_kept (v : α) : SameNumber (kept v) v := by
  cases hv : isZero v with
  | true => exact Or.inr ⟨by rw [kept_of_isZero hv, isZero_zero], hv⟩
  | false => exact Or.inl (kept_of_isNonZero (by simp [isNonZero, hv]))

namespace Sparse

variable {d : Dense α}

/-! ## The layout -/

theorem length_rows (d : Dense α) : ((List.range d.rows).map d.rowEntries).length = d.rows := by simp

theorem rows_ofDense (d : Dense α) : (ofDense d).rows = d.rows := length_rows d

theorem rowEntries_ofDense (d : Dense α) {i : Nat} (hi : i < d.rows) : (ofDense d).rowEntries i = d.rowEntries i := by
  have hi' : i < ((List.range d.rows).map d.rowEntries).length := by rwa [length_rows]
  rw [ofDense, rowEntries_ofEntries hi', List.getElem_map, List.getElem_range]

/-- **A dense block is stored in a sound layout.** -/
theorem laidOut_ofDense (h : d.Sized) : (ofDense d).LaidOut := by
  refine laidOut_ofEntries ?_ ?_
  · intro row hrow
    obtain ⟨i, -, rfl⟩ := List.mem_map.1 hrow
    exact d.pairwise_rowEntries i
  · intro row hrow e he
    obtain ⟨i, hi, rfl⟩ := List.mem_map.1 hrow
    exact ((h.mem_rowEntries (List.mem_range.1 hi)).1 he).1

/-- a row begins behind as many entries as there are cells that are not zero in front of it -/
theorem pos_ofDense (d : Dense α) {n : Nat} (hn : n ≤ d.rows) :
    (ofDense d).pos n = countNonZero (d.values.extract 0 (d.pos n)) := by
  have hn' : n ≤ ((List.range d.rows).map d.rowEntries).length := by rwa [length_rows]
  rw [ofDense, pos_ofEntries hn', ← List.map_take, List.take_range, Nat.min_eq_left hn, List.map_map,
    ← d.total_countNonZero_row]
  congr 1
  exact List.map_congr_left fun i _ => d.length_rowEntries i

theorem pos_ofDense_zero (d : Dense α) : (ofDense d).pos 0 = 0 := by
  rw [pos_ofDense d (Nat.zero_le _)]
  simp [Dense.pos, countNonZero]

theorem nnzRows?_ofDense (h : d.Sized) {rl ru : Nat} (hl : rl ≤ ru) (hu : ru ≤ d.rows) :
    (ofDense d).nnzRows? rl ru = some (countNonZero (d.values.extract (d.pos rl) (d.pos ru))) ∧
      d.countRows? rl ru = some (countNonZero (d.values.extract (d.pos rl) (d.pos ru))) := by
  have hlaid := laidOut_ofDense h
  have hrows := rows_ofDense d
  constructor
  · have hfirst := hlaid.getElem?_starts (i := rl) (by omega)
    have hlast := hlaid.getElem?_starts (i := ru) (by omega)
    have hfront := d.countNonZero_front hl
    simp only [nnzRows?, hfirst, hlast, pos_ofDense d hu, pos_ofDense d (hl.trans hu), bind, Option.bind, pure,
      Option.some.injEq]
    omega
  · refine if_pos ⟨Nat.mul_le_mul_right _ hl, ?_⟩
    rw [h]
    exact Nat.mul_le_mul_right _ hu

/-! ## The cells -/

/-- **A cell looked up** in the sparse block is the cell of the dense block, up to the sign of a zero. -/
theorem get?_ofDense (h : d.Sized) {i j : Nat} (hi : i < d.rows) (hj : j < d.cols) :
    (ofDense d).get? i j = some (kept (d.cell i j)) := by
  have hlaid := laidOut_ofDense h
  have hi' : i < (ofDense d).rows := by rwa [rows_ofDense]
  cases hv : isZero (d.cell i j) with
  | true =>
    have hnone : j ∉ (ofDense d).rowIndexes i := by
      intro hmem
      obtain ⟨v, hentry⟩ := hlaid.mem_rowIndexes_iff.1 hmem
      rw [rowEntries_ofDense d hi] at hentry
      obtain ⟨-, hv', rfl⟩ := (h.mem_rowEntries hi).1 hentry
      simp [isNonZero, hv] at hv'
    rw [hlaid.get?_of_no_entry hi' hnone, kept_of_isZero hv]
  | false =>
    have hv' : isNonZero (d.cell i j) = true := by simp [isNonZero, hv]
    have hentry : (j, d.cell i j) ∈ (ofDense d).rowEntries i := by
      rw [rowEntries_ofDense d hi]
      exact (h.mem_rowEntries hi).2 ⟨hj, hv', rfl⟩
    rw [hlaid.get?_of_entry hi' hentry, kept_of_isNonZero hv']

/-- **A decoded cell** is the cell of the dense block, up to the sign of a zero. -/
theorem get?_toDense_ofDense (h : d.Sized) {i j : Nat} (hi : i < d.rows) (hj : j < d.cols) :
    (ofDense d).toDense.get? i j = some (kept (d.cell i j)) := by
  have hi' : i < (ofDense d).rows := by rwa [rows_ofDense]
  rw [(laidOut_ofDense h).cell_toDense hi' hj, cell, get?_ofDense h hi hj, Option.getD_some]

/-- **Decoding and storing again** gives the same sparse block. -/
theorem ofDense_toDense_ofDense (h : d.Sized) : ofDense (ofDense d).toDense = ofDense d := by
  have hrows : (ofDense d).toDense.rows = d.rows := rows_ofDense d
  have hcols : (ofDense d).toDense.cols = d.cols := rfl
  have hentries : ∀ i < d.rows, (ofDense d).toDense.rowEntries i = d.rowEntries i := by
    intro i hi
    rw [(ofDense d).sized_toDense.rowEntries_eq (by rwa [hrows]), h.rowEntries_eq hi, hcols]
    refine List.filterMap_congr fun j hj => ?_
    have hcell : (ofDense d).toDense.cell i j = kept (d.cell i j) := by
      rw [Dense.cell, get?_toDense_ofDense h hi (List.mem_range.1 hj), Option.getD_some]
    rw [hcell, isNonZero_kept]
    split_ifs with hv
    · rw [kept_of_isNonZero hv]
    · rfl
  rw [ofDense, hrows, hcols, ofDense]
  congr 1
  exact List.map_congr_left fun i hi => hentries i (List.mem_range.1 hi)

/-- **A dense block that is made sparse is the same matrix.** The layout passes every check and its first start is zero;
decoding gives each cell as it was, but for the sign of zeros, with an exact count; looking a cell up gives the same
number; any range of rows is counted alike; and storing the decoded block gives the sparse block back. -/
theorem ofDense_same_matrix (h : d.Sized) :
    ∃ s t, ofDense d = s ∧ s.toDense? = some t ∧
      (ofParts s.rows s.cols s.starts s.indexes s.values = .ok s ∧ s.starts[0]? = some 0) ∧
      (t.rows = d.rows ∧ t.cols = d.cols ∧ t.Sized ∧ t.nnz = countNonZero t.values) ∧
      (∀ i < d.rows, ∀ j < d.cols, ∃ v, d.get? i j = some v ∧
        t.get? i j = some (if isZero v then zero else v) ∧ ∃ w, s.get? i j = some w ∧ SameNumber w v) ∧
      (∀ rl ru, rl ≤ ru → ru ≤ d.rows → ∃ n, s.nnzRows? rl ru = some n ∧ d.countRows? rl ru = some n) ∧
      ofDense t = s := by
  have hlaid := laidOut_ofDense h
  refine ⟨_, _, rfl, hlaid.toDense?_eq, ⟨?_, ?_⟩, ⟨rows_ofDense d, rfl, sized_toDense _, rfl⟩, ?_, ?_,
    ofDense_toDense_ofDense h⟩
  · exact hlaid.ofParts_eq
  · rw [hlaid.getElem?_starts (Nat.zero_le _), pos_ofDense_zero]
  · intro i hi j hj
    exact ⟨_, h.get?_eq hi hj, get?_toDense_ofDense h hi hj, _, get?_ofDense h hi hj, sameNumber_kept _⟩
  · intro rl ru hl hu
    obtain ⟨hsparse, hdense⟩ := nnzRows?_ofDense h hl hu
    exact ⟨_, hsparse, hdense⟩

/-- both zeros, a cell that is no number and a row of zeros, under a count that is wrong -/
def speckled : Dense Float :=
  ⟨3, 2, #[.ofBits 0x8000000000000000, .ofBits 0x7ff8000000000000, .ofBits 0, .ofBits 0x8000000000000000,
    .ofBits 0x3ff0000000000000, .ofBits 0], 9⟩

/-- the two cells that are not zero are stored, the second row is empty, and the negative zero of the first row comes
back as the positive one -/
theorem speckled_same_matrix : speckled.Sized ∧ ∃ s t, ofDense speckled = s ∧ s.starts = #[0, 1, 1, 2] ∧
    s.toDense? = some t ∧ t.get? 0 0 = some (Float.ofBits 0) ∧ t.get? 0 1 = speckled.get? 0 1 ∧
    s.nnzRows? 0 2 = some 1 ∧ ofDense t = s := by
  have hsized : speckled.Sized := rfl
  obtain ⟨s, t, hs, ht, -, -, hcells, hcounts, hback⟩ := ofDense_same_matrix hsized
  obtain ⟨v, hv, hfirst, -⟩ := hcells 0 (by decide) 0 (by decide)
  obtain ⟨w, hw, hsecond, -⟩ := hcells 0 (by decide) 1 (by decide)
  obtain ⟨n, hn, hcount⟩ := hcounts 0 2 (by decide) (by decide)
  obtain rfl := Option.some.inj hv
  obtain rfl := Option.some.inj hw
  have hone : n = 1 := Option.some.inj (hcount.symm.trans (by decide))
  exact ⟨hsized, s, t, hs, hs ▸ (by decide), ht, hfirst, hsecond, hone ▸ hn, hback⟩

end Sparse

end MatrixEngine
