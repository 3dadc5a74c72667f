/-
The dictionary of a group of columns.

After any rows the coder holds one state, which is told by the rows alone (`Coder.coded`): the dictionary has their
tuples in order of first appearance, the index finds each tuple at its place in the dictionary, and the code of a row is
the place of its tuple. `Coder.addRow_coded` is the step, `Coder.addRows` the run, and `ColumnGroup.encode_eq` says what
coding a group comes to, and when it fails: the distinct tuples must not outnumber the codes.
-/
import Mathlib.Tactic
import MatrixEngine.Block.Compressed

namespace MatrixEngine

/-! ## Lists without their repetitions -/

section Distinct

variable {β : Type} [BEq β] [LawfulBEq β] {l : List β} {b : β}

theorem eraseDups_concat_of_mem (h : b ∈ l) : (l ++ [b]).eraseDups = l.eraseDups := by
  rw [List.eraseDups_append]
  simp [List.removeAll, h]

theorem eraseDups_concat_of_notMem (h : b ∉ l) : (l ++ [b]).eraseDups = l.eraseDups ++ [b] := by
  rw [List.eraseDups_append]
  simp [List.removeAll, h, List.eraseDups_cons]

theorem nodup_eraseDups (l : List β) : l.eraseDups.Nodup := by
  induction l using List.reverseRecOn with
  | nil => exact List.nodup_nil
  | append_singleton l b ih =>
    by_cases h : b ∈ l
    · rwa [eraseDups_concat_of_mem h]
    · rw [eraseDups_concat_of_notMem h]
      exact List.nodup_append'.2 ⟨ih, List.nodup_singleton b, by simpa using h⟩

theorem length_eraseDups_concat_le (l : List β) (b : β) : l.eraseDups.length ≤ (l ++ [b]).eraseDups.length := by
  by_cases h : b ∈ l
  · rw [eraseDups_concat_of_mem h]
  · rw [eraseDups_concat_of_notMem h, List.length_append]
    exact Nat.le_add_right _ _

/-- an index that was filled from the front finds each element at its place -/
theorem lookup_zipIdx_reverse (l : List β) (b : β) (h : l.Nodup) :
    l.zipIdx.reverse.lookup b = if l.contains b then some (l.idxOf b) else none := by
  induction l using List.reverseRecOn with
  | nil => rfl
  | append_singleton l c ih =>
    obtain ⟨hl, -, hc⟩ := List.nodup_append'.1 h
    have hnew : c ∉ l := by simpa using hc
    rw [List.zipIdx_append, List.reverse_append, List.zipIdx_singleton, List.reverse_singleton, List.singleton_append,
      List.lookup_cons, ih hl]
    by_cases hbc : b = c
    · subst hbc
      simp [hnew, List.idxOf_append_of_notMem]
    · have hne : (b == c) = false := by simpa using hbc
      by_cases hb : b ∈ l
      · simp [hne, hb, List.idxOf_append_of_mem]
      · simp [hne, hbc, hb]

end Distinct

/-! ## The coder -/

namespace Coder

variable {α : Type} [DecidableEq α]

/-- the coder after the given rows -/
def coded (rows : List (Array α)) : Coder α where
  index := rows.eraseDups.zipIdx.reverse
  tuples := rows.eraseDups.toArray
  codes := (rows.map rows.eraseDups.idxOf).toArray

theorem lookup_coded (rows : List (Array α)) (t : Array α) :
    (coded rows).index.lookup t = if t ∈ rows then some (rows.eraseDups.idxOf t) else none := by
  rw [coded, lookup_zipIdx_reverse _ _ (nodup_eraseDups rows)]
  simp

/-- a tuple keeps its place when the dictionary grows -/
theorem map_idxOf_concat {rows : List (Array α)} (t : Array α) :
    rows.map (rows.eraseDups ++ [t]).idxOf = rows.map rows.eraseDups.idxOf :=
  List.map_congr_left fun _ hu => List.idxOf_append_of_mem (List.mem_eraseDups.2 hu)

/-- **Coding one more row** keeps index, dictionary and codes in step. -/
theorem addRow_coded {rows : List (Array α)} (h : rows.eraseDups.length ≤ capacity) (t : Array α) :
    (coded rows).addRow t =
      if (rows ++ [t]).eraseDups.length ≤ capacity then .ok (coded (rows ++ [t])) else .error .dictionaryFull := by
  have hlookup : rows.eraseDups.zipIdx.reverse.lookup t = _ := lookup_coded rows t
  by_cases ht : t ∈ rows
  · have hsame := eraseDups_concat_of_mem ht
    rw [if_pos ht] at hlookup
    simp only [addRow, coded, hlookup, hsame, if_pos h]
    simp
  · have hgrown := eraseDups_concat_of_notMem ht
    have hplace : (rows.eraseDups ++ [t]).idxOf t = rows.eraseDups.length := by
      rw [List.idxOf_append_of_notMem (by simpa using ht), List.idxOf_cons_self, Nat.add_zero]
    have hcount : rows.eraseDups.zipIdx.reverse.length = rows.eraseDups.length := by simp
    rw [if_neg ht] at hlookup
    simp only [addRow, coded, hlookup, hgrown, hcount, List.length_append, List.length_singleton, Nat.succ_le_iff]
    split_ifs
    · simp [map_idxOf_concat, hplace, List.zipIdx_append]
    · rfl

/-- **Coding rows one after the other** fails only if their distinct tuples outnumber the codes. -/
theorem addRows (rows : List (Array α)) : rows.foldlM Coder.addRow (⟨[], #[], #[]⟩ : Coder α) =
    if rows.eraseDups.length ≤ capacity then .ok (coded rows) else .error .dictionaryFull := by
  induction rows using List.reverseRecOn with
  | nil => rfl
  | append_singleton rows t ih =>
    rw [List.foldlM_append, ih]
    by_cases h : rows.eraseDups.length ≤ capacity
    · rw [if_pos h, ← addRow_coded h t]
      exact bind_pure ((coded rows).addRow t)
    · have hmore : ¬ (rows ++ [t]).eraseDups.length ≤ capacity := fun hle =>
        h ((length_eraseDups_concat_le rows t).trans hle)
      rw [if_neg h, if_neg hmore]
      rfl

end Coder

namespace ColumnGroup

variable {α : Type} [Cell α]

/-- the tuples of all rows in the given columns -/
def rowTuples (d : Dense α) (cols : Array Nat) : List (Array α) := (List.range d.rows).map (tupleOf d cols)

theorem getElem?_rowTuples {d : Dense α} (cols : Array Nat) {i : Nat} (hi : i < d.rows) :
    (rowTuples d cols)[i]? = some (tupleOf d cols i) := by
  rw [rowTuples, List.getElem?_map, List.getElem?_range hi, Option.map_some]

theorem size_of_mem_rowTuples {d : Dense α} {cols : Array Nat} {t : Array α} (h : t ∈ rowTuples d cols) :
    t.size = cols.size := by
  obtain ⟨i, -, rfl⟩ := List.mem_map.1 h
  exact Array.size_map

variable [DecidableEq α]

/-- **Coding a group of columns**: the distinct tuples of the rows in order of first appearance, and for each row the
place of its tuple among them. It fails exactly if there are more distinct tuples than codes. -/
theorem encode_eq (d : Dense α) (cols : Array Nat) : encode d cols =
    if (rowTuples d cols).eraseDups.length ≤ Coder.capacity then
      .ok ⟨cols, (rowTuples d cols).eraseDups.toArray,
        ((rowTuples d cols).map (rowTuples d cols).eraseDups.idxOf).toArray⟩
    else .error .dictionaryFull := by
  have hrun : (List.range d.rows).foldlM (fun (coder : Coder α) i => coder.addRow (tupleOf d cols i)) ⟨[], #[], #[]⟩ =
      (rowTuples d cols).foldlM Coder.addRow ⟨[], #[], #[]⟩ := List.foldlM_map.symm
  rw [encode, hrun, Coder.addRows]
  split_ifs
  · rfl
  · rfl

end ColumnGroup

end MatrixEngine
