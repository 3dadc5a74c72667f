/-
The rows of a sparse block that is built from the entries of its rows.

The starts are running totals of the numbers of entries, so row `i` of `Sparse.ofEntries` has the entries given for it
(`rowIndexes_ofEntries`, `rowValues_ofEntries`), and a row of `Sparse.ofDense` has the non-zero cells of the dense row.
-/
import MatrixEngine.Block.Sparse
import MatrixEngine.Proofs.Block.Cells
import MatrixEngine.Proofs.Number.Sums

namespace MatrixEngine

variable {α : Type}

theorem getElem?_runningTotals (start : Nat) {sizes : List Nat} {i : Nat} (hi : i ≤ sizes.length) :
    (runningTotals start sizes)[i]? = some (start + total (sizes.take i)) := by
  induction sizes generalizing start i with
  | nil =>
    obtain rfl : i = 0 := by simpa using hi
    rfl
  | cons n sizes ih =>
    cases i with
    | zero => rfl
    | succ i =>
      have hrest := ih (start + n) (i := i) (by simpa using hi)
      simp only [runningTotals, List.getElem?_cons_succ, hrest, List.take_succ_cons, total_cons, Nat.add_assoc]

/-- a part of a flattened list lies between the lengths of the parts before it and up to it -/
theorem extract_flatten {parts : List (List α)} {i : Nat} (hi : i < parts.length) :
    parts.flatten.toArray.extract (total ((parts.take i).map List.length))
      (total ((parts.take (i + 1)).map List.length)) = parts[i].toArray := by
  have hsplit : parts.flatten = (parts.take i).flatten ++ (parts[i] ++ (parts.drop (i + 1)).flatten) := by
    conv_lhs => rw [← List.take_append_drop i parts]
    rw [List.flatten_append, List.drop_eq_getElem_cons hi, List.flatten_cons]
  have hnext : (parts.take (i + 1)).flatten.length = (parts.take i).flatten.length + parts[i].length := by
    rw [List.take_succ_eq_append_getElem hi, List.flatten_append, List.length_append, List.flatten_singleton]
  rw [total_map_length, total_map_length, hnext, List.extract_toArray, hsplit, List.extract_eq_take_drop,
    List.drop_left, Nat.add_sub_cancel_left, List.take_left]

namespace Sparse

variable {cols : Nat} {entries : List (List (Nat × α))}

theorem pos_ofEntries {i : Nat} (hi : i ≤ entries.length) :
    (ofEntries cols entries).pos i = total ((entries.take i).map List.length) := by
  have hi' : i ≤ (entries.map List.length).length := by simpa using hi
  have htotal := getElem?_runningTotals 0 hi'
  simp only [pos, ofEntries, Array.getD_eq_getD_getElem?, List.getElem?_toArray, htotal, Option.getD_some, Nat.zero_add,
    List.map_take]

theorem extract_map_ofEntries {β : Type} (f : Nat × α → β) {i : Nat} (hi : i < entries.length) :
    (entries.flatten.map f).toArray.extract ((ofEntries cols entries).pos i) ((ofEntries cols entries).pos (i + 1)) =
      (entries[i].map f).toArray := by
  have hi' : i < (entries.map (List.map f)).length := by simpa using hi
  have hpart := extract_flatten hi'
  have hlength : ∀ n, ((entries.map (List.map f)).take n).map List.length = (entries.take n).map List.length := by
    intro n
    rw [← List.map_take, List.map_map]
    exact List.map_congr_left fun part _ => List.length_map f
  rw [hlength, hlength, ← pos_ofEntries hi.le, ← pos_ofEntries (Nat.succ_le_of_lt hi), List.getElem_map,
    ← List.map_flatten] at hpart
  exact hpart

theorem rowIndexes_ofEntries {i : Nat} (hi : i < entries.length) :
    (ofEntries cols entries).rowIndexes i = (entries[i].map (·.1)).toArray :=
  extract_map_ofEntries _ hi

theorem rowValues_ofEntries {i : Nat} (hi : i < entries.length) :
    (ofEntries cols entries).rowValues i = (entries[i].map (·.2)).toArray :=
  extract_map_ofEntries _ hi

theorem isEmptyRow_ofEntries {i : Nat} (hi : i < entries.length) :
    (ofEntries cols entries).isEmptyRow i = true ↔ entries[i] = [] := by
  rw [isEmptyRow, beq_iff_eq, pos_ofEntries hi.le, pos_ofEntries (Nat.succ_le_of_lt hi),
    List.take_succ_eq_append_getElem hi, List.map_append, total_append]
  simp [List.length_eq_zero_iff]

end Sparse

namespace Dense

open Cell

variable [Cell α]

/-- the entries of a row, column by column -/
theorem Sized.rowEntries_eq {d : Dense α} (h : d.Sized) {i : Nat} (hi : i < d.rows) :
    d.rowEntries i = (List.range d.cols).filterMap fun j =>
      if isNonZero (d.cell i j) then some (j, d.cell i j) else none := by
  have hcells : (d.row i).toList.zipIdx = (List.range d.cols).map fun j => (d.cell i j, j) := by
    refine List.ext_getElem (by simp [h.size_row hi]) fun j _ _ => ?_
    simp [h.toList_row hi]
  rw [rowEntries, hcells, List.filterMap_map]
  rfl

theorem Sized.mem_rowEntries {d : Dense α} (h : d.Sized) {i j : Nat} {v : α} (hi : i < d.rows) :
    (j, v) ∈ d.rowEntries i ↔ j < d.cols ∧ isNonZero v = true ∧ d.cell i j = v := by
  simp only [h.rowEntries_eq hi, List.mem_filterMap, List.mem_range, Option.ite_none_right_eq_some, Option.some.injEq,
    Prod.mk.injEq]
  constructor
  · rintro ⟨c, hc, hv, rfl, rfl⟩
    exact ⟨hc, hv, rfl⟩
  · rintro ⟨hj, hv, rfl⟩
    exact ⟨j, hj, hv, rfl, rfl⟩

theorem pairwise_rowEntries (d : Dense α) (i : Nat) : ((d.rowEntries i).map (·.1)).Pairwise (· < ·) := by
  have hcolumns : ((d.row i).toList.zipIdx.map (·.2)).Pairwise (· < ·) := by
    rw [List.zipIdx_map_snd]
    exact List.pairwise_lt_range' 1
  rw [List.pairwise_map] at hcolumns ⊢
  rw [rowEntries, List.pairwise_filterMap]
  refine hcolumns.imp fun {x y} hlt e he e' he' => ?_
  obtain ⟨-, hx⟩ := Option.ite_none_right_eq_some.1 he
  obtain ⟨-, hy⟩ := Option.ite_none_right_eq_some.1 he'
  rw [← Option.some.inj hx, ← Option.some.inj hy]
  exact hlt

theorem length_rowEntries (d : Dense α) (i : Nat) : (d.rowEntries i).length = countNonZero (d.row i) := by
  have hcount : (d.row i).toList.countP isNonZero = (d.row i).toList.zipIdx.countP fun p => isNonZero p.1 := by
    conv_lhs => rw [← List.zipIdx_map_fst 0 (d.row i).toList, List.countP_map]
    rfl
  rw [rowEntries, List.length_filterMap_eq_countP, countNonZero, ← Array.countP_toList, hcount]
  refine List.countP_congr fun p _ => ?_
  cases hv : isNonZero p.1 <;> simp [hv]

theorem rowEntries_eq_nil_iff {d : Dense α} (h : d.Sized) {i : Nat} (hi : i < d.rows) :
    d.rowEntries i = [] ↔ ∀ j < d.cols, isZero (d.cell i j) = true := by
  simp only [h.rowEntries_eq hi, List.filterMap_eq_nil_iff, List.mem_range, isNonZero]
  refine forall₂_congr fun j _ => ?_
  simp

end Dense

end MatrixEngine
