/-
What writes make of a buffer, as lists of cells.

- `cell_at`: a write to one cell replaces that cell and leaves the cells around it; `cells_at`: so do several, one after
  the other.
- `window_at`: a dense operand combines with the window it lies over, cell by cell, and leaves the cells around it.
- `scatter_mem`, `scatter_not_mem`: entries at different cells combine each with the cell it addresses and leave the
  others.
- `scatter_changed`: so entries behind an offset change a window of the buffer, cell by cell, and no other cells
  (`Changed`).
- `add_whole`: adding an operand of the size of the buffer adds cell by cell.
-/
import Mathlib.Tactic
import MatrixEngine.Rowwise.Write

namespace MatrixEngine

open Cell

variable {α : Type}

theorem modifyCell_at {n : Nat} {c : Vector α n} {before after : List α} {v : α}
    (h : c.toList = before ++ v :: after) (f : α → α) :
    (modifyCell c before.length f).toList = before ++ f v :: after := by
  have hmod : (modifyCell c before.length f).toList = c.toList.modify before.length f := by
    simp only [modifyCell, Vector.toList, Array.toList_modify]
  rw [hmod, h, List.modify_eq_take_cons_drop (by simp)]
  simp

/-- entries at consecutive cells combine with these one by one -/
theorem scatter_consecutive (f : α → α → α) (ci : Nat) (l : List α) {k n : Nat} {c : Vector α n}
    {before old after : List α} (hc : c.toList = before ++ old ++ after) (hk : before.length = ci + k)
    (hl : l.length = old.length) :
    (scatter f ((List.range' k l.length).zip l) ci c).toList = before ++ old.zipWith f l ++ after := by
  induction l generalizing k c before old with
  | nil =>
    obtain rfl := List.length_eq_zero_iff.1 hl.symm
    exact hc
  | cons x l ih =>
    obtain _ | ⟨o, old⟩ := old
    · simp at hl
    have hcell : (modifyCell c (ci + k) (f · x)).toList = before ++ f o x :: (old ++ after) := by
      rw [← hk]
      exact modifyCell_at (by simp [hc]) _
    have hcell' : (modifyCell c (ci + k) (f · x)).toList = before ++ [f o x] ++ old ++ after := by simpa using hcell
    have hnext := ih (k := k + 1) hcell' (by simp [hk, Nat.add_assoc]) (by simpa using hl)
    rw [List.length_cons, List.range'_succ, List.zip_cons_cons]
    simpa [scatter] using hnext

theorem getElem?_modifyCell {n : Nat} (c : Vector α n) (i k : Nat) (f : α → α) :
    (modifyCell c i f).toList[k]? = if i = k then c.toList[k]?.map f else c.toList[k]? := by
  simp only [modifyCell, Vector.toList, Array.toList_modify, List.getElem?_modify]
  split_ifs <;> simp

theorem scatter_not_mem (f : α → α → α) (ci : Nat) {entries : List (Nat × α)} {n k : Nat}
    (hk : ∀ e ∈ entries, ci + e.1 ≠ k) (c : Vector α n) : (scatter f entries ci c).toList[k]? = c.toList[k]? := by
  induction entries generalizing c with
  | nil => rfl
  | cons e entries ih =>
    have hrest := ih (fun x hx => hk x (List.mem_cons_of_mem e hx)) (modifyCell c (ci + e.1) (f · e.2))
    rw [getElem?_modifyCell, if_neg (hk e List.mem_cons_self)] at hrest
    exact hrest

/-- a cell combines with the one entry that addresses it -/
theorem scatter_mem (f : α → α → α) (ci : Nat) {entries : List (Nat × α)} (hnodup : (entries.map (·.1)).Nodup)
    {n j : Nat} {v : α} (hv : (j, v) ∈ entries) (c : Vector α n) :
    (scatter f entries ci c).toList[ci + j]? = c.toList[ci + j]?.map (f · v) := by
  induction entries generalizing c with
  | nil => cases hv
  | cons e entries ih =>
    rw [List.map_cons, List.nodup_cons] at hnodup
    have hstep : scatter f (e :: entries) ci c = scatter f entries ci (modifyCell c (ci + e.1) (f · e.2)) := rfl
    rw [hstep]
    rcases List.mem_cons.1 hv with rfl | hv
    · rw [scatter_not_mem, getElem?_modifyCell, if_pos rfl]
      intro x hx h
      exact hnodup.1 (List.mem_map.2 ⟨x, hx, Nat.add_left_cancel h⟩)
    · have hne : ci + e.1 ≠ ci + j := fun h =>
        hnodup.1 (List.mem_map.2 ⟨(j, v), hv, (Nat.add_left_cancel h).symm⟩)
      rw [ih hnodup.2 hv, getElem?_modifyCell, if_neg hne]

/-! ## Windows -/

/-- a buffer of which the cells `ci, …, ci + len - 1` are changed, the `k`-th of them by `g k`, and no others -/
structure Changed (ci len : Nat) (g : Nat → α → α) (old new : Array α) : Prop where
  size : new.size = old.size
  inside : ∀ k < len, new[ci + k]? = old[ci + k]?.map (g k)
  outside : ∀ i, ¬(ci ≤ i ∧ i < ci + len) → new[i]? = old[i]?

namespace Changed

variable {ci len : Nat} {g g' : Nat → α → α} {c d e : Array α}

theorem eq_of_mem (h : Changed ci len g c d) (h' : Changed ci len g' c e) (hg : ∀ k < len, ∀ x ∈ c, g k x = g' k x) :
    d = e := by
  refine Array.ext_getElem? fun i => ?_
  by_cases hi : ci ≤ i ∧ i < ci + len
  · obtain ⟨k, rfl⟩ := Nat.exists_eq_add_of_le hi.1
    have hk : k < len := by omega
    rw [h.inside k hk, h'.inside k hk]
    exact Option.map_congr fun x hx => hg k hk x (Array.mem_of_getElem? hx)
  · rw [h.outside i hi, h'.outside i hi]

theorem eq (h : Changed ci len g c d) (h' : Changed ci len g' c e) (hg : ∀ k < len, g k = g' k) : d = e :=
  h.eq_of_mem h' fun k hk x _ => congrFun (hg k hk) x

theorem forall_mem (h : Changed ci len g c d) {good : α → Prop} (hc : ∀ x ∈ c, good x)
    (hg : ∀ k < len, ∀ x, good x → good (g k x)) : ∀ x ∈ d, good x := by
  intro y hy
  obtain ⟨i, hi, rfl⟩ := Array.mem_iff_getElem.1 hy
  have hget : d[i]? = some d[i] := Array.getElem?_eq_getElem hi
  by_cases hin : ci ≤ i ∧ i < ci + len
  · obtain ⟨k, rfl⟩ := Nat.exists_eq_add_of_le hin.1
    have hk : k < len := by omega
    rw [h.inside k hk] at hget
    obtain ⟨x, hx, hgx⟩ := Option.map_eq_some_iff.1 hget
    exact hgx ▸ hg k hk x (hc x (Array.mem_of_getElem? hx))
  · rw [h.outside i hin] at hget
    exact hc _ (Array.mem_of_getElem? hget)

theorem trans (h : Changed ci len g c d) (h' : Changed ci len g' d e) :
    Changed ci len (fun k x => g' k (g k x)) c e := by
  refine ⟨h'.size.trans h.size, fun k hk => ?_, fun i hi => (h'.outside i hi).trans (h.outside i hi)⟩
  rw [h'.inside k hk, h.inside k hk, Option.map_map]
  rfl

end Changed

/-- entries at different cells of a window change these, and a cell of the window that no entry addresses must stay -/
theorem scatter_changed (f : α → α → α) {entries : List (Nat × α)} (hnodup : (entries.map (·.1)).Nodup) {ci len : Nat}
    {g : Nat → α → α} (hmem : ∀ {k v}, (k, v) ∈ entries → k < len ∧ ∀ x, f x v = g k x)
    (hrest : ∀ k < len, k ∉ entries.map (·.1) → ∀ x, g k x = x) {n : Nat} (c : Vector α n) :
    Changed ci len g c.toArray (scatter f entries ci c).toArray := by
  have hlist : ∀ (d : Vector α n) (i : Nat), d.toArray[i]? = d.toList[i]? := fun d i => Array.getElem?_toList.symm
  refine ⟨by simp, fun k hk => ?_, fun i hi => ?_⟩
  · rw [hlist, hlist]
    by_cases hin : k ∈ entries.map (·.1)
    · obtain ⟨⟨k, v⟩, he, rfl⟩ := List.mem_map.1 hin
      rw [scatter_mem f ci hnodup he c]
      exact congrArg (Option.map · _) (funext (hmem he).2)
    · have hid : g k = id := funext (hrest k hk hin)
      rw [scatter_not_mem, hid, Option.map_id, id]
      intro e he heq
      exact hin (List.mem_map.2 ⟨e, he, Nat.add_left_cancel heq⟩)
  · rw [hlist, hlist, scatter_not_mem]
    rintro ⟨k, v⟩ he rfl
    exact hi ⟨Nat.le_add_right ci k, Nat.add_lt_add_left (hmem he).1 ci⟩

namespace Write

theorem cell_at {n : Nat} {c : Vector α n} {before after : List α} {v : α} (h : c.toList = before ++ v :: after)
    (f : α → α) :
    (cell before.length f).fits n = true ∧ ((cell before.length f).apply c).toList = before ++ f v :: after := by
  have hn : n = c.toList.length := by simp
  refine ⟨?_, modifyCell_at h f⟩
  simp only [cell, decide_eq_true_eq]
  rw [hn, h]
  simp

/-- writes to single cells replace one cell after the other -/
theorem cells_at (f : Nat → α → α) {n : Nat} {cells : List Nat} (hn : ∀ k ∈ cells, k < n) (c : Vector α n) :
    (all (cells.map fun k => cell k (f k))).fits n = true ∧
      ((all (cells.map fun k => cell k (f k))).apply c).toList =
        cells.foldl (fun out k => out.modify k (f k)) c.toList := by
  induction cells generalizing c with
  | nil => exact ⟨rfl, rfl⟩
  | cons k cells ih =>
    obtain ⟨hfits, happly⟩ := ih (fun i hi => hn i (List.mem_cons_of_mem k hi)) (modifyCell c k (f k))
    have hcell : (modifyCell c k (f k)).toList = c.toList.modify k (f k) := by
      simp only [modifyCell, Vector.toList, Array.toList_modify]
    constructor
    · change (decide (k < n) && (all (cells.map fun k => cell k (f k))).fits n) = true
      rw [hfits, decide_eq_true (hn k List.mem_cons_self), Bool.and_true]
    · rw [hcell] at happly
      exact happly

/-- a dense operand over a window of its size -/
theorem window_at (f : α → α → α) (a : Array α) {n : Nat} {c : Vector α n} {before old after : List α}
    (h : c.toList = before ++ old ++ after) (ha : a.size = old.length) :
    (window f a before.length).fits n = true ∧
      ((window f a before.length).apply c).toList = before ++ old.zipWith f a.toList ++ after := by
  have hn : n = c.toList.length := by simp
  refine ⟨?_, ?_⟩
  · simp only [window, decide_eq_true_eq]
    rw [hn, h, List.length_append, List.length_append]
    omega
  · have hrange : denseEntries a = (List.range' 0 a.toList.length).zip a.toList := by
      simp [denseEntries, List.range_eq_range']
    simp only [window, hrange]
    exact scatter_consecutive f before.length a.toList h rfl (by simpa using ha)

variable [Cell α]

/-- **Adding an operand of the size of the buffer** adds cell by cell. -/
theorem add_whole (a : Array α) {n : Nat} (c : Vector α n) (ha : a.size = n) :
    ((add a 0).apply c).toList = c.toList.zipWith (· + ·) a.toList := by
  have hc : c.toList = [] ++ c.toList ++ [] := by simp
  simpa [add] using (window_at (· + ·) a hc (by simpa using ha)).2

end Write

end MatrixEngine
