/-
Sparse operands do what dense ones do.

The entries of a row that are not zero list the numbers of the row as all its cells do (`lists_nonZeroEntries`), and
what is added for a zero changes nothing. So either form of a reduction has the same value, and either form of a write
changes the same window of the buffer in the same way and no other cell (`sparse_as_dense`). A row that is written over
the buffer only loses the signs of its zeros.
-/
import MatrixEngine.Proofs.Block.Conversion
import MatrixEngine.Proofs.Rowwise.Outer

namespace MatrixEngine

open Cell

variable {α : Type} [Cell α]

/-- the cells of an operand that are not zero, in ascending order, with their positions -/
def nonZeroEntries (a : Array α) : List (Nat × α) := (denseEntries a).filter (isNonZero ·.2)

theorem lists_nonZeroEntries (a : Array α) : Lists (nonZeroEntries a) a.size fun i => a.getD i zero :=
  (lists_denseEntries a).filter

/-- they are at the cells that are not zero -/
theorem mem_nonZeroEntries {a : Array α} {k : Nat} (hk : k < a.size) :
    k ∈ (nonZeroEntries a).map (·.1) ↔ isNonZero (a.getD k zero) = true := by
  constructor
  · intro hmem
    obtain ⟨⟨k, v⟩, he, rfl⟩ := List.mem_map.1 hmem
    obtain ⟨-, rfl⟩ := (lists_nonZeroEntries a).value he
    exact (List.mem_filter.1 he).2
  · intro hv
    by_contra hout
    have hzero := (lists_nonZeroEntries a).rest k hk hout
    rw [isNonZero, hzero] at hv
    cases hv

/-! ## Dot products -/

/-- entries inside an operand meet a cell each -/
theorem dotTerms?_eq {entries : List (Nat × α)} {b : Array α} (h : ∀ e ∈ entries, e.1 < b.size) :
    dotTerms? entries b = some (entries.map fun e => e.2 * b.getD e.1 zero) := by
  unfold dotTerms?
  induction entries with
  | nil => rfl
  | cons e entries ih =>
    have hlt : e.1 < b.size := h e List.mem_cons_self
    rw [List.mapM_cons, ih fun x hx => h x (List.mem_cons_of_mem e hx)]
    simp [hlt]

/-- the products of an operand with one that goes as far, cell by cell -/
theorem zipWith_eq_map {a b : Array α} (h : a.size ≤ b.size) :
    a.toList.zipWith (· * ·) b.toList = (denseEntries a).map fun e => e.2 * b.getD e.1 zero := by
  refine List.ext_getElem (by simp [denseEntries, h]) fun k hk _ => ?_
  have hlt : k < b.size := by
    simp at hk
    omega
  simp [denseEntries, hlt]

/-- a sum loses nothing with the products of zeros -/
theorem sum_nonZero [ExactProduct α] (entries : List (Nat × α)) (b : Array α) :
    Cell.sum ((entries.filter (isNonZero ·.2)).map fun e => e.2 * b.getD e.1 zero) =
      Cell.sum (entries.map fun e => e.2 * b.getD e.1 zero) := by
  have hfold : ∀ start : α,
      ((entries.filter (isNonZero ·.2)).map fun e => e.2 * b.getD e.1 zero).foldl (· + ·) start =
        (entries.map fun e => e.2 * b.getD e.1 zero).foldl (· + ·) start := by
    induction entries with
    | nil => exact fun _ => rfl
    | cons e entries ih =>
      intro start
      rw [List.filter_cons, List.map_cons, List.foldl_cons]
      split_ifs with hv
      · exact ih _
      · have hzero : isZero e.2 = true := by simpa [isNonZero] using hv
        rw [ExactProduct.add_zero start _ (ExactProduct.zero_mul e.2 _ hzero)]
        exact ih start
  exact hfold sumStart

/-- **The dot product of the entries is that of the row.** -/
theorem dotSparse?_eq [ExactProduct α] {a b : Array α} (h : a.size ≤ b.size) :
    dotSparse? (nonZeroEntries a) b = some (dot a b) := by
  have hin : ∀ e ∈ nonZeroEntries a, e.1 < b.size := fun e he => ((lists_nonZeroEntries a).value he).1.trans_le h
  rw [dotSparse?, dotTerms?_eq hin, Option.map_some, nonZeroEntries, sum_nonZero, dot, zipWith_eq_map h]

/-! ## Writes to a window -/

theorem scaled_changed [ExactProduct α] {entries : List (Nat × α)} {len : Nat} {u : Nat → α} (h : Lists entries len u)
    (s : α) {ci n : Nat} (c : Vector α n) :
    Changed ci len (fun k x => x + u k * s) c.toArray (scatter (fun c x => c + x * s) entries ci c).toArray := by
  refine scatter_changed _ h.nodup (fun {k v} he => ?_) (fun k hk hout x => ?_) c
  · obtain ⟨hk, rfl⟩ := h.value he
    exact ⟨hk, fun _ => rfl⟩
  · exact ExactProduct.add_zero x _ (ExactProduct.zero_mul _ s (h.rest k hk hout))

omit [Cell α] in
/-- entries for all cells of a window replace these -/
theorem put_changed {entries : List (Nat × α)} {len : Nat} {u : Nat → α} (hkeys : entries.map (·.1) = List.range len)
    (hvalue : ∀ {k v}, (k, v) ∈ entries → v = u k) {ci n : Nat} (c : Vector α n) :
    Changed ci len (fun k _ => u k) c.toArray (scatter (fun _ x => x) entries ci c).toArray := by
  refine scatter_changed _ (by rw [hkeys]; exact List.nodup_range) (fun {k v} he => ?_) (fun k hk hout => ?_) c
  · have hmem : k ∈ entries.map (·.1) := List.mem_map.2 ⟨_, he, rfl⟩
    rw [hkeys] at hmem
    exact ⟨List.mem_range.1 hmem, fun _ => hvalue he⟩
  · exact absurd (List.mem_range.2 hk) (hkeys ▸ hout)

namespace Write

variable {v w : Write α} {ci len : Nat} {g g' : Nat → α → α} {c : Array α}

/-- in any buffer that has the window the write fits, and changes the window and nothing else -/
def Changes (w : Write α) (ci len : Nat) (g : Nat → α → α) : Prop :=
  ∀ (n : Nat) (c : Vector α n), ci + len ≤ n → w.fits n = true ∧ Changed ci len g c.toArray (w.apply c).toArray

omit [Cell α] in
theorem Changes.congr (h : w.Changes ci len g) (hg : ∀ k < len, g k = g' k) : w.Changes ci len g' := by
  intro n c hn
  obtain ⟨hfits, hsize, hinside, houtside⟩ := h n c hn
  exact ⟨hfits, hsize, fun k hk => by rw [hinside k hk, hg k hk], houtside⟩

omit [Cell α] in
theorem Changes.run? (h : w.Changes ci len g) (hc : ci + len ≤ c.size) :
    ∃ out, w.run? c = some out ∧ Changed ci len g c out := by
  obtain ⟨hfits, hchanged⟩ := h c.size c.toVector hc
  exact ⟨_, if_pos hfits, hchanged⟩

omit [Cell α] in
theorem Changes.run?_eq (h : v.Changes ci len g) (h' : w.Changes ci len g) (hc : ci + len ≤ c.size) :
    ∃ out, v.run? c = some out ∧ w.run? c = some out ∧ Changed ci len g c out := by
  obtain ⟨out, hrun, hout⟩ := h.run? hc
  obtain ⟨out', hrun', hout'⟩ := h'.run? hc
  obtain rfl := hout.eq hout' fun _ _ => rfl
  exact ⟨out, hrun, hrun', hout⟩

omit [Cell α] in
theorem Changes.andThen (h : v.Changes ci len g) (h' : w.Changes ci len g') :
    (v.andThen w).Changes ci len fun k x => g' k (g k x) := by
  intro n c hn
  obtain ⟨hfits, hchanged⟩ := h n c hn
  obtain ⟨hfits', hchanged'⟩ := h' n (v.apply c) hn
  exact ⟨Bool.and_eq_true_iff.2 ⟨hfits, hfits'⟩, hchanged.trans hchanged'⟩

variable (a b : Array α) (s : α) (ci : Nat)

theorem multAdd_changes [ExactProduct α] : (multAdd a s ci).Changes ci a.size fun k x => x + a.getD k zero * s :=
  fun _ c hn => ⟨decide_eq_true hn, scaled_changed (lists_denseEntries a) s c⟩

theorem fits_nonZeroEntries {n : Nat} (hn : ci + a.size ≤ n) :
    ((nonZeroEntries a).all fun (j, _) => ci + j < n) = true := by
  refine List.all_eq_true.2 fun e he => decide_eq_true ?_
  exact (Nat.add_lt_add_left ((lists_nonZeroEntries a).value he).1 ci).trans_le hn

theorem multAddSparse_changes [ExactProduct α] :
    (multAddSparse (nonZeroEntries a) s ci).Changes ci a.size fun k x => x + a.getD k zero * s :=
  fun _ c hn => ⟨fits_nonZeroEntries a ci hn, scaled_changed (lists_nonZeroEntries a) s c⟩

/-- either form of an outer product adds the products in their layout -/
theorem IsOuter.changes [ExactProduct α] {a b : Array α} {ci : Nat} (h : IsOuter a b ci w) :
    w.Changes ci (a.size * b.size) fun k x => x + outerCell a b k := by
  intro n c hn
  obtain ⟨terms, hadds, hlists⟩ := h.adds hn
  exact ⟨hadds.1, hadds.changed hlists c⟩

/-! ## Writes over a window -/

theorem window_changes (f : α → α → α) : (window f a ci).Changes ci a.size fun k x => f x (a.getD k zero) := by
  intro n c hn
  have hkeys : (denseEntries a).map (·.1) = List.range a.size := List.map_fst_zip (by simp)
  refine ⟨decide_eq_true hn, scatter_changed f (hkeys ▸ List.nodup_range) (fun {k v} he => ?_) (fun k hk hout => ?_) c⟩
  · obtain ⟨hk, rfl⟩ := (lists_denseEntries a).value he
    exact ⟨hk, fun _ => rfl⟩
  · exact absurd (List.mem_range.2 hk) (hkeys ▸ hout)

/-- the cells of an operand that are not zero change the cells of the window that they lie over -/
theorem points_changes (f : α → α → α) : (points f (nonZeroEntries a) ci).Changes ci a.size fun k x =>
    if isNonZero (a.getD k zero) then f x (a.getD k zero) else x := by
  intro n c hn
  refine ⟨fits_nonZeroEntries a ci hn, scatter_changed f (lists_nonZeroEntries a).nodup (fun {k v} he => ?_)
    (fun k hk hout x => ?_) c⟩
  · obtain ⟨hk, rfl⟩ := (lists_nonZeroEntries a).value he
    refine ⟨hk, fun x => ?_⟩
    rw [if_pos ((mem_nonZeroEntries hk).1 (List.mem_map.2 ⟨_, he, rfl⟩))]
  · rw [if_neg fun hv => hout ((mem_nonZeroEntries hk).2 hv)]

theorem copy_changes : (window (fun _ x => x) a ci).Changes ci a.size fun k _ => a.getD k zero :=
  window_changes a ci fun _ x => x

theorem clear_changes (len : Nat) : (clear ci len : Write α).Changes ci len fun _ _ => zero := by
  intro n c hn
  have hscatter : clearWindow ci len c = scatter (fun _ x => x) ((List.range len).map fun j => (j, zero)) ci c := by
    rw [scatter, List.foldl_map]
    rfl
  have hkeys : ((List.range len).map fun j => (j, (zero : α))).map (·.1) = List.range len := by
    rw [List.map_map]
    exact List.map_id _
  refine ⟨decide_eq_true hn, ?_⟩
  change Changed ci len _ c.toArray (clearWindow ci len c).toArray
  rw [hscatter]
  refine put_changed hkeys (fun {k v} he => ?_) c
  obtain ⟨j, -, heq⟩ := List.mem_map.1 he
  exact (Prod.mk.inj heq).2.symm

/-- over a cleared window the entries leave the row, but for the signs of its zeros -/
theorem putSparse_changes :
    (putSparse (nonZeroEntries a) a.size ci).Changes ci a.size fun k _ => kept (a.getD k zero) := by
  have hkept : (fun (k : Nat) (_ : α) => kept (a.getD k zero)) =
      fun k _ => if isNonZero (a.getD k zero) then a.getD k zero else zero := by
    funext k _
    generalize a.getD k zero = v
    cases hv : isZero v <;> simp [kept, isNonZero, hv]
  rw [hkept]
  exact (clear_changes ci a.size).andThen (points_changes a ci fun _ x => x)

end Write

/-- **Sparse operands do what dense ones do.** Take the cells of a row that are not zero, in ascending order, in place
of the row. With numbers for which a product with a zero is zero and adding a zero changes nothing,
- the dot product with a vector that goes as far is the same;
- adding a multiple leaves any buffer that has the window the same, cell by cell, and so does adding an outer product,
  in either layout;
- writing the row over the buffer leaves what copying the row does, but for the signs of zeros.
None of these writes changes a cell outside of its window. -/
theorem sparse_as_dense [ExactProduct α] {a : Array α} {cols : Array Nat} {vals : Array α}
    (h : sparseEntries cols vals = nonZeroEntries a) (b : Array α) (s : α) (c : Array α) (ci : Nat) :
    (a.size ≤ b.size → dotSparse? (sparseEntries cols vals) b = some (dot a b)) ∧
    (ci + a.size ≤ c.size → ∃ out, (Write.multAdd a s ci).run? c = some out ∧
      (Write.multAddSparse (sparseEntries cols vals) s ci).run? c = some out ∧
      Changed ci a.size (fun k x => x + a.getD k zero * s) c out) ∧
    (ci + a.size * b.size ≤ c.size → ∃ out, (Write.outer a b ci).run? c = some out ∧
      (Write.outerSparse (sparseEntries cols vals) a.size b ci).run? c = some out ∧
      Changed ci (a.size * b.size) (fun k x => x + Write.outerCell a b k) c out) ∧
    (ci + a.size ≤ c.size → ∃ copy out : Array α, (Write.window (fun _ x => x) a ci).run? c = some copy ∧
      (Write.putSparse (sparseEntries cols vals) a.size ci).run? c = some out ∧
      Changed ci a.size (fun k _ => a.getD k zero) c copy ∧ Changed ci a.size (fun k _ => kept (a.getD k zero)) c out ∧
      (∀ (i : Nat) x y, out[i]? = some x → copy[i]? = some y → SameNumber x y) ∧
      ((∀ v : α, isZero v = true → v = zero) → out = copy)) := by
  rw [h]
  refine ⟨dotSparse?_eq, fun hc => ?_, fun hc => ?_, fun hc => ?_⟩
  · exact (Write.multAdd_changes a s ci).run?_eq (Write.multAddSparse_changes a s ci) hc
  · exact (Write.IsOuter.changes .dense).run?_eq (Write.IsOuter.changes (.sparse (lists_nonZeroEntries a))) hc
  · obtain ⟨copy, hrun, hcopy⟩ := (Write.copy_changes a ci).run? hc
    obtain ⟨out, hrun', hout⟩ := (Write.putSparse_changes a ci).run? hc
    refine ⟨copy, out, hrun, hrun', hcopy, hout, fun i x y hx hy => ?_, fun hzero => hout.eq hcopy fun k _ => ?_⟩
    · by_cases hi : ci ≤ i ∧ i < ci + a.size
      · obtain ⟨k, rfl⟩ := Nat.exists_eq_add_of_le hi.1
        have hk : k < a.size := by omega
        rw [hout.inside k hk] at hx
        rw [hcopy.inside k hk] at hy
        obtain ⟨_, -, rfl⟩ := Option.map_eq_some_iff.1 hx
        obtain ⟨_, -, rfl⟩ := Option.map_eq_some_iff.1 hy
        exact sameNumber_kept _
      · rw [hout.outside i hi] at hx
        rw [hcopy.outside i hi, hx] at hy
        exact Or.inl (Option.some.inj hy)
    · exact funext fun _ => (sameNumber_kept (a.getD k zero)).eq_of_one_zero hzero

theorem two_entries : sparseEntries #[1, 3] #[2, 3] = nonZeroEntries (#[0, 2, 0, 3] : Array Int) := by
  decide

/-- two entries in place of four cells: the dot product, a multiple added behind two cells, the outer product with a
vector of one cell, and the row itself -/
theorem two_entries_for_four_cells :
    dotSparse? (sparseEntries #[1, 3] #[2, 3]) (#[1, 4, 5, 6] : Array Int) = some 26 ∧
    (Write.multAddSparse (sparseEntries #[1, 3] #[2, 3]) 10 2).run? (#[9, 9, 1, 1, 1, 1, 9] : Array Int) =
      some #[9, 9, 1, 21, 1, 31, 9] ∧
    (Write.outerSparse (sparseEntries #[1, 3] #[2, 3]) 4 #[5] 2).run? (#[9, 9, 1, 1, 1, 1, 9] : Array Int) =
      some #[9, 9, 1, 11, 1, 16, 9] ∧
    (Write.putSparse (sparseEntries #[1, 3] #[2, 3]) 4 2).run? (#[9, 9, 1, 1, 1, 1, 9] : Array Int) =
      some #[9, 9, 0, 2, 0, 3, 9] := by
  obtain ⟨hdot, -⟩ := sparse_as_dense two_entries #[1, 4, 5, 6] 10 #[9, 9, 1, 1, 1, 1, 9] 2
  obtain ⟨-, hadd, houter, hput⟩ := sparse_as_dense two_entries #[5] 10 #[9, 9, 1, 1, 1, 1, 9] 2
  refine ⟨(hdot (by decide)).trans (by decide), ?_, ?_, ?_⟩
  · obtain ⟨out, hdense, hsparse, -⟩ := hadd (by decide)
    exact hsparse.trans (hdense.symm.trans (by decide))
  · obtain ⟨out, hdense, hsparse, -⟩ := houter (by decide)
    exact hsparse.trans (hdense.symm.trans (by decide))
  · obtain ⟨copy, out, hdense, hsparse, -, -, -, hsame⟩ := hput (by decide)
    obtain rfl := hsame fun v hv => beq_iff_eq.1 hv
    exact hsparse.trans (hdense.symm.trans (by decide))

end MatrixEngine
