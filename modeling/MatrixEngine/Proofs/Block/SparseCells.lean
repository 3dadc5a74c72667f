/-
The cells of a sparse block with a sound layout.

- `bisect_complete`, `bisect_sound`: halving finds a column index in a row exactly if the row has it.
- `layoutFault?_eq_none_iff`: the layout checks find no fault exactly if the block is laid out soundly
  (`Sparse.LaidOut`).
- `get?_of_entry`, `get?_of_no_entry`: a stored entry is its cell, every other cell is zero.
- `cell_toDense`: the dense block has the same cells.
-/
import MatrixEngine.Block.Sparse
import MatrixEngine.Proofs.Block.Cells

namespace MatrixEngine

/-! ## Bisection -/

theorem bisect_sound {xs : Array Nat} {x base size k : Nat} (h : bisect xs x base size = some k) :
    xs[k]? = some x := by
  fun_induction bisect xs x base size with
  | case1 base size _ half mid _ ih => exact ih h
  | case2 base size _ half mid _ ih => exact ih h
  | case3 base size _ hx => exact Option.some.inj h ▸ hx
  | case4 => cases h

/-- an index of an ascending array is found from any candidates around it -/
theorem bisect_complete {xs : Array Nat} (hxs : xs.toList.Pairwise (· < ·)) {x k : Nat} (hk : xs[k]? = some x)
    {base size : Nat} (hle : base ≤ k) (hlt : k < base + size) (hend : base + size ≤ xs.size) :
    bisect xs x base size = some k := by
  have hascends : ∀ {a b : Nat} (hb : b < xs.size), a < b → xs.getD a 0 < xs.getD b 0 := by
    intro a b hb hab
    have := List.pairwise_iff_getElem.1 hxs a b (by simpa using hab.trans hb) (by simpa using hb) hab
    simpa [Array.getD, hab.trans hb, hb] using this
  have hkx : xs.getD k 0 = x := by rw [Array.getD_eq_getD_getElem?, hk, Option.getD_some]
  fun_induction bisect xs x base size with
  | case1 base size hsize half mid hx ih =>
    refine ih hle ?_ (by omega)
    by_contra hge
    have hmid : mid ≤ k := by omega
    rcases Nat.eq_or_lt_of_le hmid with heq | hlt'
    · rw [heq, hkx] at hx
      omega
    · have := hascends (by omega) hlt'
      omega
  | case2 base size hsize half mid hx ih =>
    refine ih ?_ (by omega) (by omega)
    by_contra hge
    have := hascends (a := k) (b := mid) (by omega) (by omega)
    omega
  | case3 base size hsize hx =>
    have : base = k := by omega
    rw [this]
  | case4 base size hsize hx =>
    have : base = k := by omega
    exact absurd (this ▸ hk) hx

theorem strictlyAscending_iff {l : List Nat} : strictlyAscending l = true ↔ l.Pairwise (· < ·) := by
  rw [← List.isChain_iff_pairwise]
  fun_induction strictlyAscending l with
  | case1 a b rest ih => simp [ih]
  | case2 l hl =>
    match l, hl with
    | [], _ => simp
    | [a], _ => simp
    | a :: b :: rest, hl => exact absurd rfl (hl a b rest)

theorem nonDecreasing_iff {l : List Nat} : nonDecreasing l = true ↔ l.Pairwise (· ≤ ·) := by
  rw [← List.isChain_iff_pairwise]
  fun_induction nonDecreasing l with
  | case1 a b rest ih => simp [ih]
  | case2 l hl =>
    match l, hl with
    | [], _ => simp
    | [a], _ => simp
    | a :: b :: rest, hl => exact absurd rfl (hl a b rest)

namespace Sparse

open Cell

variable {α : Type} {s : Sparse α}

/-! ## Sound layouts -/

/-- the starts rise from row to row up to the number of entries, and rows have ascending column indexes in range -/
structure LaidOut (s : Sparse α) : Prop where
  startCount : s.starts.size = s.rows + 1
  partsAgree : s.indexes.size = s.values.size
  last : s.pos s.rows = s.values.size
  starts : s.starts.toList.Pairwise (· ≤ ·)
  columns : ∀ j ∈ s.indexes, j < s.cols
  ascending : ∀ i < s.rows, (s.rowIndexes i).toList.Pairwise (· < ·)

/-- **The layout checks** find no fault exactly in a sound layout. -/
theorem layoutFault?_eq_none_iff {rows cols : Nat} {starts indexes : Array Nat} {values : Array α} :
    layoutFault? rows cols starts indexes values = none ↔ (Sparse.mk rows cols starts indexes values).LaidOut := by
  have hfind : (indexes.find? fun c => decide (cols ≤ c)) = none ↔ ∀ j ∈ indexes, j < cols := by
    simp [Array.find?_eq_none]
  have hrows : ((List.range rows).find? fun i =>
      !strictlyAscending (indexes.extract (starts.getD i 0) (starts.getD (i + 1) 0)).toList) = none ↔
      ∀ i < rows, (indexes.extract (starts.getD i 0) (starts.getD (i + 1) 0)).toList.Pairwise (· < ·) := by
    simp [List.find?_eq_none, strictlyAscending_iff]
  unfold layoutFault?
  constructor
  · intro h
    split_ifs at h with h1 h2 h3
    rw [not_or, not_not, not_not] at h2
    rw [Bool.not_eq_true, Bool.not_eq_false', nonDecreasing_iff] at h3
    split at h
    · cases h
    · rename_i hcols
      exact ⟨not_not.1 h1, h2.1, h2.2, h3, hfind.1 hcols, hrows.1 (Option.map_eq_none_iff.1 h)⟩
  · rintro ⟨h1, h2, h3, h4, h5, h6⟩
    have hsize : indexes.size = values.size := h2
    have hlast : starts.getD rows 0 = values.size := h3
    rw [if_neg (not_not.2 h1), if_neg (not_or.2 ⟨not_not.2 hsize, not_not.2 hlast⟩),
      if_neg (by simpa using nonDecreasing_iff.2 h4)]
    simp only [hfind.2 h5, Option.map_eq_none_iff]
    exact hrows.2 h6

theorem LaidOut.size_row (h : s.LaidOut) (i : Nat) : (s.rowIndexes i).size = (s.rowValues i).size := by
  simp [rowIndexes, rowValues, h.partsAgree]

theorem LaidOut.column_lt (h : s.LaidOut) {i j : Nat} (hj : j ∈ s.rowIndexes i) : j < s.cols := by
  refine h.columns j ?_
  obtain ⟨k, hk⟩ := Array.mem_iff_getElem?.1 hj
  rw [rowIndexes, Array.getElem?_extract] at hk
  split_ifs at hk
  exact Array.mem_of_getElem? hk

/-- column `j` is met in row `i` with a value -/
theorem LaidOut.mem_rowIndexes_iff (h : s.LaidOut) {i j : Nat} : j ∈ s.rowIndexes i ↔ ∃ v, (j, v) ∈ s.rowEntries i := by
  constructor
  · intro hj
    obtain ⟨k, hk⟩ := Array.mem_iff_getElem?.1 hj
    have hlt : k < (s.rowValues i).size := h.size_row i ▸ (Array.getElem?_eq_some_iff.1 hk).1
    refine ⟨(s.rowValues i)[k], List.mem_iff_getElem?.2 ⟨k, ?_⟩⟩
    rw [rowEntries, List.getElem?_zip_eq_some]
    simp [hk, hlt]
  · rintro ⟨v, hv⟩
    exact Array.mem_toList_iff.1 (List.of_mem_zip hv).1

/-! ## Cells -/

variable [Cell α]

theorem LaidOut.get?_eq (h : s.LaidOut) {i : Nat} (hi : i < s.rows) (j : Nat) :
    s.get? i j = some (((bisect (s.rowIndexes i) j 0 (s.rowIndexes i).size).bind ((s.rowValues i)[·]?)).getD zero) := by
  rw [get?, row?, if_pos (by rw [h.startCount]; omega)]
  rfl

theorem LaidOut.get?_of_entry (h : s.LaidOut) {i j : Nat} {v : α} (hi : i < s.rows) (hv : (j, v) ∈ s.rowEntries i) :
    s.get? i j = some v := by
  obtain ⟨k, hk⟩ := List.mem_iff_getElem?.1 hv
  rw [rowEntries, List.getElem?_zip_eq_some, Array.getElem?_toList, Array.getElem?_toList] at hk
  obtain ⟨hj, hval⟩ := hk
  simp only at hj hval
  have hlt : k < (s.rowIndexes i).size := (Array.getElem?_eq_some_iff.1 hj).1
  rw [h.get?_eq hi, bisect_complete (h.ascending i hi) hj (Nat.zero_le k) (by omega) (by omega), Option.bind_some, hval,
    Option.getD_some]

theorem LaidOut.get?_of_no_entry (h : s.LaidOut) {i j : Nat} (hi : i < s.rows) (hj : j ∉ s.rowIndexes i) :
    s.get? i j = some zero := by
  have hnone : bisect (s.rowIndexes i) j 0 (s.rowIndexes i).size = none := by
    cases hb : bisect (s.rowIndexes i) j 0 (s.rowIndexes i).size with
    | none => rfl
    | some k => exact absurd (Array.mem_of_getElem? (bisect_sound hb)) hj
  rw [h.get?_eq hi, hnone, Option.bind_none, Option.getD_none]

/-- cell `(i, j)` of a sparse block, zero where no row is -/
def cell (s : Sparse α) (i j : Nat) : α := (s.get? i j).getD zero

/-- the entries of all rows with their places in a row-major buffer -/
def placedEntries (s : Sparse α) : List (Nat × α) :=
  (List.range s.rows).flatMap fun i => (s.rowEntries i).map fun (j, v) => (i * s.cols + j, v)

theorem values_toDense (s : Sparse α) :
    s.toDense.values = s.placedEntries.foldl (fun out e => out.setIfInBounds e.1 e.2) (zeros (s.rows * s.cols)) := by
  rw [placedEntries, List.foldl_flatMap]
  unfold toDense
  simp only
  congr 1
  funext out i
  rw [writeRow, List.foldl_map]

theorem sized_toDense (s : Sparse α) : s.toDense.Sized := by
  rw [Dense.Sized, values_toDense, size_foldl_set, size_zeros]
  rfl

/-- **The dense block has the same cells.** -/
theorem LaidOut.cell_toDense (h : s.LaidOut) {i j : Nat} (hi : i < s.rows) (hj : j < s.cols) :
    s.toDense.get? i j = some (s.cell i j) := by
  have hentry : ∀ {r c : Nat} {v : α}, r < s.rows → (c, v) ∈ s.rowEntries r → c < s.cols := by
    intro r c v hr hv
    exact h.column_lt (h.mem_rowIndexes_iff.2 ⟨v, hv⟩)
  have hagree : ∀ e ∈ s.placedEntries, e.2 = s.cell (e.1 / s.cols) (e.1 % s.cols) := by
    rintro e he
    obtain ⟨r, hr, he⟩ := List.mem_flatMap.1 he
    obtain ⟨⟨c, v⟩, hv, rfl⟩ := List.mem_map.1 he
    have hr' := List.mem_range.1 hr
    have hc := hentry hr' hv
    simp only [rowMajor_div r hc, rowMajor_mod r hc, cell, h.get?_of_entry hr' hv, Option.getD_some]
  have hk : i * s.cols + j < (zeros (s.rows * s.cols) : Array α).size := by simpa using rowMajor_lt hi hj
  have hpos : s.toDense.get? i j = s.toDense.values[i * s.cols + j]? := rfl
  rw [hpos, values_toDense, getElem?_foldl_set (f := fun k => s.cell (k / s.cols) (k % s.cols)) hagree hk]
  split_ifs with hmem
  · rw [rowMajor_div i hj, rowMajor_mod i hj]
  · have hnot : j ∉ s.rowIndexes i := by
      intro hin
      obtain ⟨v, hv⟩ := h.mem_rowIndexes_iff.1 hin
      exact hmem (List.mem_map.2 ⟨_, List.mem_flatMap.2 ⟨i, List.mem_range.2 hi, List.mem_map_of_mem hv⟩, rfl⟩)
    rw [cell, h.get?_of_no_entry hi hnot, Option.getD_some, zeros, Array.getElem?_replicate,
      if_pos (by simpa using hk)]

end Sparse

end MatrixEngine
