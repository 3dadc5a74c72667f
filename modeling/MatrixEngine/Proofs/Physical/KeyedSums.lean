/-
Sums by key.

Sorting keyed cells leaves the cells of one key in their order (`keyed_sortByKey`) and brings them side by side, so that
a run of equal keys holds all cells of its key and no others (`Runs.run_eq_keyed`). What is written for a run is therefore
the sum of the values of its key, in the order in which they came. So the sums succeed exactly if every key lies inside
the output, and the order of the cells counts only within a key (`sums_by_key`).
-/
import Mathlib.Data.List.SplitBy
import Mathlib.Tactic
import MatrixEngine.Physical.Value
import MatrixEngine.Proofs.Block.Cells
import MatrixEngine.Proofs.Number.Sums

namespace MatrixEngine.Value

open Cell

variable {α : Type} {cs : List (KeyedCell α)} {i j : Nat}

/-! ## Cells of one key -/

/-- the cells for one place, in their order -/
def keyed (cs : List (KeyedCell α)) (i j : Nat) : List (KeyedCell α) := cs.filter fun c => c.row == i && c.col == j

theorem mem_keyed {c : KeyedCell α} : c ∈ keyed cs i j ↔ c ∈ cs ∧ c.row = i ∧ c.col = j := by
  simp [keyed]

theorem keyed_cons (c : KeyedCell α) (cs : List (KeyedCell α)) (i j : Nat) :
    keyed (c :: cs) i j = if c.row = i ∧ c.col = j then c :: keyed cs i j else keyed cs i j := by
  simp [keyed, List.filter_cons]

theorem keyed_append (cs ds : List (KeyedCell α)) (i j : Nat) : keyed (cs ++ ds) i j = keyed cs i j ++ keyed ds i j :=
  List.filter_append cs ds

theorem keyed_eq_self (h : ∀ c ∈ cs, c.row = i ∧ c.col = j) : keyed cs i j = cs := by
  refine List.filter_eq_self.2 fun c hc => ?_
  simpa using h c hc

theorem keyed_eq_nil (h : ∀ c ∈ cs, ¬(c.row = i ∧ c.col = j)) : keyed cs i j = [] := by
  refine List.filter_eq_nil_iff.2 fun c hc => ?_
  simpa using h c hc

theorem mem_of_keyed {as bs : List (KeyedCell α)} (h : ∀ i j, keyed as i j = keyed bs i j) {c : KeyedCell α}
    (hc : c ∈ as) : c ∈ bs := by
  have hkeyed : c ∈ keyed bs c.row c.col := h c.row c.col ▸ mem_keyed.2 ⟨hc, rfl, rfl⟩
  exact (mem_keyed.1 hkeyed).1

/-! ## Sorting -/

theorem keyLe_iff {a b : KeyedCell α} : keyLe a b = true ↔ a.row < b.row ∨ a.row = b.row ∧ a.col ≤ b.col := by
  simp [keyLe]

theorem keyLe_trans (a b c : KeyedCell α) (hab : keyLe a b = true) (hbc : keyLe b c = true) : keyLe a c = true := by
  rw [keyLe_iff] at hab hbc ⊢
  omega

theorem keyLe_total (a b : KeyedCell α) : (keyLe a b || keyLe b a) = true := by
  rw [Bool.or_eq_true, keyLe_iff, keyLe_iff]
  omega

theorem pairwise_sortByKey (cs : List (KeyedCell α)) : (sortByKey cs).Pairwise fun a b => keyLe a b = true :=
  List.pairwise_mergeSort keyLe_trans keyLe_total cs

theorem perm_sortByKey (cs : List (KeyedCell α)) : (sortByKey cs).Perm cs := List.mergeSort_perm cs keyLe

/-- **Sorting is stable**: it leaves the cells of a key in their order. -/
theorem keyed_sortByKey (cs : List (KeyedCell α)) (i j : Nat) : keyed (sortByKey cs) i j = keyed cs i j := by
  have hsorted : (keyed cs i j).Pairwise fun a b => keyLe a b = true := by
    refine List.pairwise_of_forall_mem_list fun a ha b hb => keyLe_iff.2 (Or.inr ?_)
    obtain ⟨-, hrow, hcol⟩ := mem_keyed.1 ha
    obtain ⟨-, hrow', hcol'⟩ := mem_keyed.1 hb
    exact ⟨hrow.trans hrow'.symm, (hcol.trans hcol'.symm).le⟩
  have hsub : (keyed cs i j).Sublist (sortByKey cs) :=
    List.sublist_mergeSort keyLe_trans keyLe_total hsorted List.filter_sublist
  have hsub' : (keyed cs i j).Sublist (keyed (sortByKey cs) i j) := by
    have hkeyed : keyed (keyed cs i j) i j = keyed cs i j := keyed_eq_self fun c hc => (mem_keyed.1 hc).2
    exact hkeyed ▸ hsub.filter _
  exact (hsub'.eq_of_length ((perm_sortByKey cs).filter _).length_eq.symm).symm

/-- sorted cells are told by the cells of each key -/
theorem eq_of_keyed {as bs : List (KeyedCell α)} (ha : as.Pairwise fun a b => keyLe a b = true)
    (hb : bs.Pairwise fun a b => keyLe a b = true) (h : ∀ i j, keyed as i j = keyed bs i j) : as = bs := by
  induction as generalizing bs with
  | nil =>
    refine (List.eq_nil_iff_forall_not_mem.2 fun c hc => ?_).symm
    cases mem_of_keyed (fun i j => (h i j).symm) hc
  | cons a as ih =>
    have hab := mem_of_keyed h List.mem_cons_self
    obtain ⟨b, bs, rfl⟩ := List.exists_cons_of_ne_nil (List.ne_nil_of_mem hab)
    have hba := mem_of_keyed (fun i j => (h i j).symm) List.mem_cons_self
    obtain ⟨hleast, hsorted⟩ := List.pairwise_cons.1 ha
    obtain ⟨hleast', hsorted'⟩ := List.pairwise_cons.1 hb
    -- both heads have the least key
    have hkey : a.row = b.row ∧ a.col = b.col := by
      rcases List.mem_cons.1 hab with rfl | hab
      · exact ⟨rfl, rfl⟩
      rcases List.mem_cons.1 hba with rfl | hba
      · exact ⟨rfl, rfl⟩
      have hle := keyLe_iff.1 (hleast b hba)
      have hge := keyLe_iff.1 (hleast' a hab)
      omega
    have hheads := h a.row a.col
    rw [keyed_cons, keyed_cons, if_pos ⟨rfl, rfl⟩, if_pos ⟨hkey.1.symm, hkey.2.symm⟩] at hheads
    obtain ⟨rfl, -⟩ := List.cons.inj hheads
    rw [ih hsorted hsorted' fun i j => ?_]
    have hrest := h i j
    rw [keyed_cons, keyed_cons] at hrest
    split_ifs at hrest
    · exact (List.cons.inj hrest).2
    · exact hrest

/-- sorting sees the order of the cells only within a key -/
theorem sortByKey_congr {as bs : List (KeyedCell α)} (h : ∀ i j, keyed as i j = keyed bs i j) :
    sortByKey as = sortByKey bs := by
  refine eq_of_keyed (pairwise_sortByKey as) (pairwise_sortByKey bs) fun i j => ?_
  rw [keyed_sortByKey, keyed_sortByKey, h]

/-! ## Runs of equal keys -/

theorem sameKey_iff {a b : KeyedCell α} : sameKey a b = true ↔ a.row = b.row ∧ a.col = b.col := by
  simp [sameKey]

instance : @Trans (KeyedCell α) (KeyedCell α) (KeyedCell α) (sameKey · ·) (sameKey · ·) (sameKey · ·) where
  trans {a b c} hab hbc := by
    rw [sameKey_iff] at hab hbc ⊢
    exact ⟨hab.1.trans hbc.1, hab.2.trans hbc.2⟩

/-- lists of cells of one key, where the key changes from each list to the next -/
structure Runs (rs : List (List (KeyedCell α))) : Prop where
  nonempty : [] ∉ rs
  same : ∀ r ∈ rs, r.IsChain fun a b => sameKey a b = true
  change : rs.IsChain fun r s => ∃ hr hs, sameKey (r.getLast hr) (s.head hs) = false

theorem runs_splitBy (cs : List (KeyedCell α)) : Runs (cs.splitBy sameKey) :=
  ⟨List.nil_notMem_splitBy _ _, fun _ => List.isChain_of_mem_splitBy, List.isChain_getLast_head_splitBy _ _⟩

theorem key_of_chain {r : List (KeyedCell α)} (h : r.IsChain fun a b => sameKey a b = true) {a b : KeyedCell α}
    (ha : a ∈ r) (hb : b ∈ r) : a.row = b.row ∧ a.col = b.col := by
  obtain ⟨c, rest, rfl⟩ := List.exists_cons_of_ne_nil (List.ne_nil_of_mem ha)
  have hhead : ∀ x ∈ c :: rest, c.row = x.row ∧ c.col = x.col := by
    intro x hx
    rcases List.mem_cons.1 hx with rfl | hx
    · exact ⟨rfl, rfl⟩
    · exact sameKey_iff.1 (h.rel_cons hx)
  obtain ⟨hrow, hcol⟩ := hhead a ha
  obtain ⟨hrow', hcol'⟩ := hhead b hb
  exact ⟨hrow.symm.trans hrow', hcol.symm.trans hcol'⟩

/-- if the keys do not descend, the key of the first run does not come again: the next run begins with a larger key, and
from there on no key is smaller than that -/
theorem Runs.later_keys {first : List (KeyedCell α)} {rest : List (List (KeyedCell α))} (h : Runs (first :: rest))
    (hsorted : (first ++ rest.flatten).Pairwise fun a b => keyLe a b = true) {a b : KeyedCell α} (ha : a ∈ first)
    (hb : b ∈ rest.flatten) : ¬(a.row = b.row ∧ a.col = b.col) := by
  intro hab
  obtain ⟨-, hlater, hacross⟩ := List.pairwise_append.1 hsorted
  cases rest with
  | nil => cases hb
  | cons next rest =>
    obtain ⟨⟨hfirst, hnext, hchange⟩, -⟩ := List.isChain_cons_cons.1 h.change
    obtain ⟨d, next, rfl⟩ := List.exists_cons_of_ne_nil hnext
    have hkey := key_of_chain (h.same first List.mem_cons_self) ha (List.getLast_mem hfirst)
    have hlast := keyLe_iff.1 (hacross _ (List.getLast_mem hfirst) d List.mem_cons_self)
    have hne : ¬((first.getLast hfirst).row = d.row ∧ (first.getLast hfirst).col = d.col) := fun heq =>
      Bool.false_ne_true (hchange.symm.trans (sameKey_iff.2 heq))
    have hle : d.row < b.row ∨ d.row = b.row ∧ d.col ≤ b.col := by
      rcases List.mem_cons.1 hb with rfl | hb
      · exact Or.inr ⟨rfl, le_rfl⟩
      · exact keyLe_iff.1 (List.rel_of_pairwise_cons hlater hb)
    omega

theorem Runs.tail {first : List (KeyedCell α)} {rest : List (List (KeyedCell α))} (h : Runs (first :: rest)) :
    Runs rest :=
  ⟨fun hnil => h.nonempty (List.mem_cons_of_mem _ hnil), fun r hr => h.same r (List.mem_cons_of_mem _ hr),
    h.change.tail⟩

/-- **A run holds all cells of its key and no others**, if the keys do not descend. -/
theorem Runs.run_eq_keyed {rs : List (List (KeyedCell α))} (h : Runs rs)
    (hsorted : rs.flatten.Pairwise fun a b => keyLe a b = true) {r : List (KeyedCell α)} (hr : r ∈ rs)
    {c : KeyedCell α} (hc : c ∈ r) : r = keyed rs.flatten c.row c.col := by
  induction rs with
  | nil => cases hr
  | cons first rest ih =>
    rw [List.flatten_cons] at hsorted ⊢
    rw [keyed_append]
    rcases List.mem_cons.1 hr with rfl | hr
    · have hrest : keyed rest.flatten c.row c.col = [] :=
        keyed_eq_nil fun x hx heq => h.later_keys hsorted hc hx ⟨heq.1.symm, heq.2.symm⟩
      rw [keyed_eq_self fun x hx => key_of_chain (h.same r List.mem_cons_self) hx hc, hrest, List.append_nil]
    · have hfirst : keyed first c.row c.col = [] :=
        keyed_eq_nil fun x hx heq => h.later_keys hsorted hx (List.mem_flatten.2 ⟨r, hr, hc⟩) heq
      rw [hfirst, List.nil_append]
      exact ih h.tail (List.pairwise_append.1 hsorted).2.1 hr

theorem run_sortByKey {r : List (KeyedCell α)} (hr : r ∈ (sortByKey cs).splitBy sameKey) {c : KeyedCell α}
    (hc : c ∈ r) : c ∈ cs ∧ r = keyed cs c.row c.col := by
  have hflat : ((sortByKey cs).splitBy sameKey).flatten = sortByKey cs := List.flatten_splitBy _ _
  have hrun := (runs_splitBy (sortByKey cs)).run_eq_keyed (by rw [hflat]; exact pairwise_sortByKey cs) hr hc
  rw [hflat, keyed_sortByKey] at hrun
  exact ⟨(mem_keyed.1 (hrun ▸ hc)).1, hrun⟩

theorem exists_run {c : KeyedCell α} (hc : c ∈ cs) : keyed cs c.row c.col ∈ (sortByKey cs).splitBy sameKey := by
  have hmem : c ∈ ((sortByKey cs).splitBy sameKey).flatten := by
    rw [List.flatten_splitBy]
    exact (perm_sortByKey cs).mem_iff.2 hc
  obtain ⟨r, hr, hcr⟩ := List.mem_flatten.1 hmem
  exact (run_sortByKey hr hcr).2 ▸ hr

/-- the first cell of each run of the sorted list -/
def firsts (cs : List (KeyedCell α)) : List (KeyedCell α) := ((sortByKey cs).splitBy sameKey).filterMap List.head?

theorem mem_of_firsts {c : KeyedCell α} (hc : c ∈ firsts cs) : c ∈ cs := by
  obtain ⟨r, hr, hhead⟩ := List.mem_filterMap.1 hc
  exact (run_sortByKey hr (List.mem_of_head? hhead)).1

theorem exists_first {c : KeyedCell α} (hc : c ∈ cs) : ∃ d ∈ firsts cs, d.row = c.row ∧ d.col = c.col := by
  have hrun := exists_run hc
  obtain ⟨d, rest, hcons⟩ := List.exists_cons_of_ne_nil (List.ne_nil_of_mem_splitBy hrun)
  have hd : d ∈ keyed cs c.row c.col := hcons ▸ List.mem_cons_self
  refine ⟨d, List.mem_filterMap.2 ⟨_, hrun, ?_⟩, (mem_keyed.1 hd).2⟩
  rw [hcons]
  rfl

/-! ## Writing runs -/

variable [Cell α] {rows cols : Nat}

/-- writing runs inside the output, where `f` tells the sum of a run by its place -/
theorem foldlM_addRun {f : Nat → Nat → α} {rs : List (List (KeyedCell α))} {out : Dense α}
    (h : ∀ r ∈ rs, ∃ c rest, r = c :: rest ∧ (c.row < out.rows ∧ c.col < out.cols) ∧
      Cell.sum (r.map (·.value)) = f c.row c.col) :
    rs.foldlM addRun out =
      .ok ((rs.filterMap List.head?).foldl (fun d c => d.set c.row c.col (f c.row c.col)) out) := by
  induction rs generalizing out with
  | nil => rfl
  | cons r rs ih =>
    obtain ⟨c, rest, rfl, ⟨hrow, hcol⟩, hsum⟩ := h r List.mem_cons_self
    obtain ⟨hrows, hcols, -⟩ := Dense.set_eq out c.row c.col (f c.row c.col)
    have hrun : addRun out (c :: rest) = .ok (out.set c.row c.col (f c.row c.col)) := by
      rw [addRun, if_neg (by omega), hsum]
    rw [List.foldlM_cons, hrun]
    refine ih fun s hs => ?_
    rw [hrows, hcols]
    exact h s (List.mem_cons_of_mem _ hs)

/-- writing runs of which one lies outside the output fails at such a run -/
theorem foldlM_addRun_outside {rs : List (List (KeyedCell α))} (hne : [] ∉ rs) (out : Dense α) {c : KeyedCell α}
    {rest : List (KeyedCell α)} (h : c :: rest ∈ rs) (hc : ¬(c.row < out.rows ∧ c.col < out.cols)) :
    ∃ x ∈ rs.flatten, ¬(x.row < out.rows ∧ x.col < out.cols) ∧
      rs.foldlM addRun out = .error (.cellOutside x.row x.col out.rows out.cols) := by
  induction rs generalizing out with
  | nil => cases h
  | cons r rs ih =>
    obtain ⟨x, tail, rfl⟩ := List.exists_cons_of_ne_nil fun h0 => hne (h0 ▸ List.mem_cons_self)
    by_cases hx : x.row < out.rows ∧ x.col < out.cols
    · have hrun : addRun out (x :: tail) = .ok (out.set x.row x.col (Cell.sum ((x :: tail).map (·.value)))) := by
        rw [addRun, if_neg (by omega)]
      obtain ⟨hrows, hcols, -⟩ := Dense.set_eq out x.row x.col (Cell.sum ((x :: tail).map (·.value)))
      have hlater : c :: rest ∈ rs := by
        refine (List.mem_cons.1 h).resolve_left fun heq => hc ?_
        obtain ⟨rfl, -⟩ := List.cons.inj heq
        exact hx
      obtain ⟨y, hy, hyout, hrest⟩ := ih (fun h0 => hne (List.mem_cons_of_mem _ h0)) _ hlater (by rwa [hrows, hcols])
      rw [hrows, hcols] at hyout hrest
      refine ⟨y, List.mem_append_right _ hy, hyout, ?_⟩
      rw [List.foldlM_cons, hrun]
      exact hrest
    · have hrun : addRun out (x :: tail) = .error (.cellOutside x.row x.col out.rows out.cols) := by
        rw [addRun, if_pos (by omega)]
      refine ⟨x, List.mem_append_left _ List.mem_cons_self, hx, ?_⟩
      rw [List.foldlM_cons, hrun]
      rfl

/-! ## Sums -/

/-- the sum of the values for a place, in their order, and zero if there are none -/
def keyTotal (cs : List (KeyedCell α)) (i j : Nat) : α :=
  match keyed cs i j with
  | [] => zero
  | ks => Cell.sum (ks.map (·.value))

theorem keyTotal_of_mem {c : KeyedCell α} (hc : c ∈ cs) :
    keyTotal cs c.row c.col = Cell.sum ((keyed cs c.row c.col).map (·.value)) := by
  have hmem : c ∈ keyed cs c.row c.col := mem_keyed.2 ⟨hc, rfl, rfl⟩
  unfold keyTotal
  split
  · rename_i hnil
    rw [hnil] at hmem
    cases hmem
  · rfl

theorem keyTotal_of_not_mem (h : ∀ c ∈ cs, ¬(c.row = i ∧ c.col = j)) : keyTotal cs i j = zero := by
  unfold keyTotal
  rw [keyed_eq_nil h]

/-- the sums of cells inside the output are written to the place of each key -/
theorem sumRuns_eq (h : ∀ c ∈ cs, c.row < rows ∧ c.col < cols) :
    sumRuns (sortByKey cs) rows cols = .ok (((firsts cs).foldl (fun d c => d.set c.row c.col (keyTotal cs c.row c.col))
      (Dense.zeros rows cols)).recount) := by
  have hfold : ((sortByKey cs).splitBy sameKey).foldlM addRun (Dense.zeros rows cols) =
      .ok ((firsts cs).foldl (fun d c => d.set c.row c.col (keyTotal cs c.row c.col)) (Dense.zeros rows cols)) := by
    refine foldlM_addRun fun r hr => ?_
    obtain ⟨c, rest, rfl⟩ := List.exists_cons_of_ne_nil (List.ne_nil_of_mem_splitBy hr)
    obtain ⟨hc, hrun⟩ := run_sortByKey hr List.mem_cons_self
    refine ⟨c, rest, rfl, h c hc, ?_⟩
    rw [keyTotal_of_mem hc, ← hrun]
  unfold sumRuns
  rw [hfold]
  rfl

theorem sumRuns_inside (h : ∀ c ∈ cs, c.row < rows ∧ c.col < cols) :
    ∃ out, sumRuns (sortByKey cs) rows cols = .ok out ∧ out.rows = rows ∧ out.cols = cols ∧ out.Sized ∧
      out.nnz = countNonZero out.values ∧ ∀ i < rows, ∀ j < cols, out.cell i j = keyTotal cs i j := by
  set written := (firsts cs).foldl (fun d c => d.set c.row c.col (keyTotal cs c.row c.col)) (Dense.zeros rows cols)
  have hsized : (Dense.zeros rows cols : Dense α).Sized := Dense.sized_zeros rows cols
  obtain ⟨hrows, hcols, -⟩ := Dense.foldl_set_eq KeyedCell.row KeyedCell.col (fun c => keyTotal cs c.row c.col)
    (firsts cs) (Dense.zeros rows cols)
  refine ⟨written.recount, sumRuns_eq h, hrows, hcols, hsized.foldl_set (firsts cs), rfl, fun i hi j hj => ?_⟩
  have hcell : written.cell i j = if (i, j) ∈ (firsts cs).map (fun c => (c.row, c.col)) then keyTotal cs i j
      else (Dense.zeros rows cols).cell i j :=
    hsized.cell_foldl_set (fun c hc => (h c (mem_of_firsts hc)).2) (fun _ _ => rfl) hi hj
  refine hcell.trans ?_
  split_ifs with hin
  · rfl
  · rw [Dense.cell_zeros, keyTotal_of_not_mem]
    rintro c hc ⟨rfl, rfl⟩
    obtain ⟨d, hd, hrow, hcol⟩ := exists_first hc
    exact hin (List.mem_map.2 ⟨d, hd, by rw [hrow, hcol]⟩)

/-- if a cell lies outside the output, the sums fail at such a cell -/
theorem sumRuns_outside {c : KeyedCell α} (hc : c ∈ cs) (hout : ¬(c.row < rows ∧ c.col < cols)) :
    ∃ x ∈ cs, ¬(x.row < rows ∧ x.col < cols) ∧
      sumRuns (sortByKey cs) rows cols = .error (.cellOutside x.row x.col rows cols) := by
  have hrun := exists_run hc
  obtain ⟨d, rest, hcons⟩ := List.exists_cons_of_ne_nil (List.ne_nil_of_mem_splitBy hrun)
  obtain ⟨-, hrow, hcol⟩ := mem_keyed.1 (hcons ▸ List.mem_cons_self : d ∈ keyed cs c.row c.col)
  have hd : ¬(d.row < rows ∧ d.col < cols) := by
    rw [hrow, hcol]
    exact hout
  obtain ⟨x, hx, hxout, hfold⟩ :=
    foldlM_addRun_outside (List.nil_notMem_splitBy _ _) (Dense.zeros rows cols) (hcons ▸ hrun) hd
  rw [List.flatten_splitBy] at hx
  refine ⟨x, (perm_sortByKey cs).mem_iff.1 hx, hxout, ?_⟩
  unfold sumRuns
  rw [hfold]
  rfl

/-- **Cells are summed by key.** Sorting any cells and summing the runs of equal keys succeeds exactly if all keys lie
inside the output. Then each cell of the output is the sum of the values of its key, added to the empty sum in the order
in which they came, or zero if no cell has this key, and the count is that of the cells that are not zero. Cells in
another order, where those of each key come in the same order as before, have the same outcome. -/
theorem sums_by_key (cs : List (KeyedCell α)) (rows cols : Nat) :
    ((∃ out, sumRuns (sortByKey cs) rows cols = .ok out) ↔ ∀ c ∈ cs, c.row < rows ∧ c.col < cols) ∧
    (∀ out, sumRuns (sortByKey cs) rows cols = .ok out →
      out.rows = rows ∧ out.cols = cols ∧ out.Sized ∧ out.nnz = countNonZero out.values ∧
      ∀ i < rows, ∀ j < cols, out.get? i j = some (keyTotal cs i j)) ∧
    ∀ cs', (∀ i j, keyed cs' i j = keyed cs i j) →
      sumRuns (sortByKey cs') rows cols = sumRuns (sortByKey cs) rows cols := by
  have hiff : (∃ out, sumRuns (sortByKey cs) rows cols = .ok out) ↔ ∀ c ∈ cs, c.row < rows ∧ c.col < cols := by
    constructor
    · rintro ⟨out, hok⟩ c hc
      by_contra hout
      obtain ⟨x, -, -, herror⟩ := sumRuns_outside hc hout
      rw [hok] at herror
      cases herror
    · intro h
      obtain ⟨out, hok, -⟩ := sumRuns_inside h
      exact ⟨out, hok⟩
  refine ⟨hiff, fun out hout => ?_, fun cs' h => by rw [sortByKey_congr h]⟩
  obtain ⟨out', hok, hrows, hcols, hsized, hnnz, hcells⟩ := sumRuns_inside (hiff.1 ⟨out, hout⟩)
  obtain rfl := Except.ok.inj (hout.symm.trans hok)
  refine ⟨hrows, hcols, hsized, hnnz, fun i hi j hj => ?_⟩
  rw [hsized.get?_eq (hrows ▸ hi) (hcols ▸ hj), hcells i hi j hj]

/-- two cells for each of two places, one after the other -/
def twoKeys : List (KeyedCell Int) := [⟨2, 0, -1⟩, ⟨0, 0, 4⟩, ⟨2, 0, 1⟩, ⟨0, 0, 5⟩]

/-- four and five are summed, one and its negative leave a zero that is not counted, and two rows do not suffice -/
theorem two_keys_are_summed :
    (∃ out, sumRuns (sortByKey twoKeys) 3 1 = .ok out ∧ out.get? 0 0 = some 9 ∧ out.get? 1 0 = some 0 ∧
      out.get? 2 0 = some 0 ∧ out.nnz = countNonZero out.values) ∧
    (¬∃ out, sumRuns (sortByKey twoKeys) 2 1 = .ok out) ∧
    sumRuns (sortByKey [⟨0, 0, 4⟩, ⟨0, 0, 5⟩, ⟨2, 0, -1⟩, ⟨2, 0, 1⟩]) 3 1 = sumRuns (sortByKey twoKeys) 3 1 := by
  obtain ⟨hiff, hcells, horder⟩ := sums_by_key twoKeys 3 1
  obtain ⟨out, hout⟩ := hiff.2 (by decide)
  obtain ⟨-, -, -, hnnz, hget⟩ := hcells out hout
  refine ⟨⟨out, hout, hget 0 (by decide) 0 (by decide), hget 1 (by decide) 0 (by decide),
    hget 2 (by decide) 0 (by decide), hnnz⟩, fun h => ?_, horder _ fun i j => ?_⟩
  · exact absurd ((sums_by_key twoKeys 2 1).1.1 h) (by decide)
  · by_cases hi : 2 = i
    · subst hi
      simp [twoKeys, keyed_cons]
    · simp [twoKeys, keyed_cons, hi]

end MatrixEngine.Value
