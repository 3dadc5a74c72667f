/-
Outer products: an operator that adds one up for every row returns their sum, in whichever layout it was added up.

An operator of an outer type decides by its output shape whether the kernel's output is transposed; the kernel's write
decides by the lengths of its operands. A write of an outer product is one scatter of its terms (`Write.Adds`), which
list all products of the operands but for zeros (`lists_products`), laid out as the write decides. If the operands are
as long as the output is high and wide, both decisions are the same, so closing the output undoes what the writes did.
- `IsOuter.adds`: either form of the write adds to each cell the product that belongs there.
- `execute_outer_sums`: the cell `(i, j)` of the result is the sum over the rows, in order, of the products of the
  left operand at `i` and the right operand at `j`.
-/
import MatrixEngine.Proofs.Number.Sums
import MatrixEngine.Proofs.Rowwise.Accumulators

namespace MatrixEngine

open Cell

variable {α : Type} [Cell α]

/-! ## Entries that list numbers -/

/-- the entries `(index, number)` give the numbers `g 0, …, g (n - 1)`, each at most once and all but zeros -/
structure Lists (entries : List (Nat × α)) (n : Nat) (g : Nat → α) : Prop where
  nodup : (entries.map (·.1)).Nodup
  value : ∀ {k v}, (k, v) ∈ entries → k < n ∧ v = g k
  rest : ∀ k < n, k ∉ entries.map (·.1) → isZero (g k) = true

theorem lists_denseEntries (a : Array α) : Lists (denseEntries a) a.size fun i => a.getD i zero := by
  have hkeys : (denseEntries a).map (·.1) = List.range a.size := List.map_fst_zip (by simp)
  refine ⟨hkeys ▸ List.nodup_range, fun {k v} he => ?_, fun k hk hnot => ?_⟩
  · obtain ⟨i, hi, hkv⟩ := List.mem_iff_getElem.1 he
    have hi' : i < a.size := by simpa [denseEntries] using hi
    obtain ⟨rfl, rfl⟩ : i = k ∧ a[i] = v := by simpa [denseEntries] using hkv
    simp [hi']
  · exact absurd (List.mem_range.2 hk) (hkeys ▸ hnot)

theorem Lists.filter {entries : List (Nat × α)} {n : Nat} {g : Nat → α} (h : Lists entries n g) :
    Lists (entries.filter (isNonZero ·.2)) n g := by
  refine ⟨h.nodup.sublist (List.filter_sublist.map _), fun he => h.value (List.mem_of_mem_filter he),
    fun k hk hnot => ?_⟩
  by_cases hmem : k ∈ entries.map (·.1)
  · obtain ⟨e, he, rfl⟩ := List.mem_map.1 hmem
    have hzero : isNonZero e.2 ≠ true := fun hnz =>
      hnot (List.mem_map.2 ⟨e, List.mem_filter.2 ⟨he, hnz⟩, rfl⟩)
    rw [← (h.value he).2]
    simpa [isNonZero] using hzero
  · exact h.rest k hk hmem

/-- the products of two lists of entries; those of one `outer` entry lie in a run of `width` positions -/
def products (outer inner : List (Nat × α)) (width : Nat) : List (Nat × α) :=
  outer.flatMap fun (i, s) => inner.map fun (j, x) => (i * width + j, x * s)

/-- **The products of entries** list the products of the numbers that the entries list. -/
theorem lists_products [ExactProduct α] {outer inner : List (Nat × α)} {m width : Nat} {u w : Nat → α}
    (ho : Lists outer m u) (hi : Lists inner width w) :
    Lists (products outer inner width) (m * width) fun k => w (k % width) * u (k / width) := by
  have hmem : ∀ {k v}, (k, v) ∈ products outer inner width ↔
      ∃ i s j x, (i, s) ∈ outer ∧ (j, x) ∈ inner ∧ i * width + j = k ∧ x * s = v := by
    intro k v
    simp only [products, List.mem_flatMap, List.mem_map, Prod.exists, Prod.mk.injEq]
    constructor
    · rintro ⟨i, s, hs, j, x, hx, hk, hv⟩
      exact ⟨i, s, j, x, hs, hx, hk, hv⟩
    · rintro ⟨i, s, j, x, hs, hx, hk, hv⟩
      exact ⟨i, s, hs, j, x, hx, hk, hv⟩
  refine ⟨?_, ?_, fun k hk hnot => ?_⟩
  · have hkeys : (products outer inner width).map (·.1) =
        (outer.map (·.1)).flatMap fun i => (inner.map (·.1)).map (i * width + ·) := by
      simp [products, List.map_flatMap, List.flatMap_map, Function.comp_def]
    rw [hkeys, List.nodup_flatMap]
    refine ⟨fun i _ => hi.nodup.map fun _ _ => Nat.add_left_cancel, ho.nodup.imp fun {i i'} hne => ?_⟩
    -- positions of different outer entries lie in different runs
    intro k hk hk'
    obtain ⟨j, hj, rfl⟩ := List.mem_map.1 hk
    obtain ⟨j', hj', heq⟩ := List.mem_map.1 hk'
    obtain ⟨e, he, rfl⟩ := List.mem_map.1 hj
    obtain ⟨e', he', rfl⟩ := List.mem_map.1 hj'
    refine hne ?_
    rw [← rowMajor_div i (hi.value he).1, ← heq, rowMajor_div i' (hi.value he').1]
  · intro k v he
    obtain ⟨i, s, j, x, hs, hx, rfl, rfl⟩ := hmem.1 he
    obtain ⟨hi', rfl⟩ := ho.value hs
    obtain ⟨hj', rfl⟩ := hi.value hx
    refine ⟨rowMajor_lt hi' hj', ?_⟩
    simp only [rowMajor_mod i hj', rowMajor_div i hj']
  · have hpos : 0 < width := Nat.pos_of_ne_zero fun h => by simp [h] at hk
    have hrow : k / width < m := Nat.div_lt_of_lt_mul (by rwa [Nat.mul_comm] at hk)
    have hcol : k % width < width := Nat.mod_lt _ hpos
    by_cases houter : k / width ∈ outer.map (·.1)
    · by_cases hinner : k % width ∈ inner.map (·.1)
      · obtain ⟨⟨i, s⟩, hs, hi'⟩ := List.mem_map.1 houter
        obtain ⟨⟨j, x⟩, hx, hj'⟩ := List.mem_map.1 hinner
        refine absurd (List.mem_map.2 ⟨(k, x * s), hmem.2 ⟨i, s, j, x, hs, hx, ?_, rfl⟩, rfl⟩) hnot
        simp only at hi' hj'
        rw [hi', hj', Nat.mul_comm]
        exact Nat.div_add_mod k width
      · exact ExactProduct.zero_mul _ _ (hi.rest _ hcol hinner)
    · exact ExactProduct.mul_zero _ _ (ho.rest _ hrow houter)

/-! ## Writes as scatters of terms -/

/-- in a buffer of `n` cells the write fits, and adds the terms `(position, number)` one after the other -/
def Write.Adds (w : Write α) (n : Nat) (terms : List (Nat × α)) : Prop :=
  w.fits n = true ∧ ∀ c : Vector α n, w.apply c = scatter (· + ·) terms 0 c

/-- terms behind an offset that list numbers add these to a window of the buffer, cell by cell -/
theorem Write.Adds.changed [ExactProduct α] {w : Write α} {n ci len : Nat} {terms : List (Nat × α)} {g : Nat → α}
    (hw : w.Adds n (terms.map fun e => (ci + e.1, e.2))) (h : Lists terms len g) (c : Vector α n) :
    Changed ci len (fun k x => x + g k) c.toArray (w.apply c).toArray := by
  have hscatter : w.apply c = scatter (· + ·) terms ci c := by
    rw [hw.2]
    simp only [scatter, List.foldl_map, Nat.zero_add]
  rw [hscatter]
  refine scatter_changed (· + ·) h.nodup (fun {k v} he => ?_) (fun k hk hout x => ?_) c
  · obtain ⟨hk, rfl⟩ := h.value he
    exact ⟨hk, fun _ => rfl⟩
  · exact ExactProduct.add_zero x _ (h.rest k hk hout)

/-- terms that list numbers for all cells add these to the whole buffer -/
theorem Write.Adds.toList_apply [ExactProduct α] {w : Write α} {n : Nat} {terms : List (Nat × α)} {g : Nat → α}
    (hw : w.Adds n (terms.map fun e => (0 + e.1, e.2))) (h : Lists terms n g) (c : Vector α n) :
    (w.apply c).toList = addCells c.toList ((List.range n).map g) := by
  have hchanged := hw.changed h c
  refine List.ext_getElem? fun k => ?_
  rcases Nat.lt_or_ge k n with hk | hk
  · have hcell : (w.apply c).toList[k]? = c.toList[k]?.map (· + g k) := by
      simpa [Vector.toList] using hchanged.inside k hk
    rw [hcell]
    simp [addCells, hk]
  · rw [List.getElem?_eq_none (by simpa using hk), List.getElem?_eq_none (by simp [addCells, hk])]

theorem Write.adds_all {ι : Type} {items : List ι} {w : ι → Write α} {n : Nat} {terms : ι → List (Nat × α)}
    (h : ∀ i ∈ items, (w i).Adds n (terms i)) : (all (items.map w)).Adds n (items.flatMap terms) := by
  induction items with
  | nil => exact ⟨rfl, fun _ => rfl⟩
  | cons i items ih =>
    obtain ⟨hfits, happly⟩ := h i List.mem_cons_self
    obtain ⟨hfits', happly'⟩ := ih fun j hj => h j (List.mem_cons_of_mem i hj)
    refine ⟨?_, fun c => ?_⟩
    · change ((w i).fits n && (all (items.map w)).fits n) = true
      rw [hfits, hfits', Bool.and_true]
    · change (all (items.map w)).apply ((w i).apply c) = _
      rw [happly, happly', List.flatMap_cons, scatter, scatter, scatter, List.foldl_append]

theorem scatter_scaled (entries : List (Nat × α)) (s : α) (ci : Nat) {n : Nat} (c : Vector α n) :
    scatter (fun c x => c + x * s) entries ci c =
      scatter (· + ·) (entries.map fun (j, x) => (ci + j, x * s)) 0 c := by
  simp only [scatter, List.foldl_map, Nat.zero_add]

theorem Write.multAdd_adds (a : Array α) (s : α) {ci n : Nat} (h : ci + a.size ≤ n) :
    (multAdd a s ci).Adds n ((denseEntries a).map fun (j, x) => (ci + j, x * s)) :=
  ⟨decide_eq_true h, scatter_scaled (denseEntries a) s ci⟩

theorem Write.multAddSparse_adds {entries : List (Nat × α)} (s : α) {ci n : Nat} (h : ∀ e ∈ entries, ci + e.1 < n) :
    (multAddSparse entries s ci).Adds n (entries.map fun (j, x) => (ci + j, x * s)) :=
  ⟨List.all_eq_true.2 fun e he => decide_eq_true (h e he), scatter_scaled entries s ci⟩

/-! ## Outer products -/

namespace Write

/-- the write of the outer product of two operands: as they are, or from entries that list the left one -/
inductive IsOuter (a b : Array α) (ci : Nat) : Write α → Prop
  | dense : IsOuter a b ci (outer a b ci)
  | sparse {entries : List (Nat × α)} :
      Lists entries a.size (fun i => a.getD i zero) → IsOuter a b ci (outerSparse entries a.size b ci)

/-- the product that belongs to cell `k`, as the outer product of two operands is laid out -/
def outerCell (a b : Array α) (k : Nat) : α :=
  if flipsOuter a.size b.size then a.getD (k % a.size) zero * b.getD (k / a.size) zero
  else a.getD (k / b.size) zero * b.getD (k % b.size) zero

/-- the products, if the layout is flipped: one run for each entry of the right operand -/
theorem lists_flipped [ExactProduct α] {a b : Array α} (hf : flipsOuter a.size b.size = true)
    {entries : List (Nat × α)} (he : Lists entries a.size fun i => a.getD i zero) :
    Lists (products ((denseEntries b).filter (isNonZero ·.2)) entries a.size) (b.size * a.size) (outerCell a b) := by
  unfold outerCell
  simpa only [hf, if_true] using lists_products (lists_denseEntries b).filter he

/-- the products, if it is not: one run for each entry of the left operand -/
theorem lists_plain [ExactProduct α] {a b : Array α} (hf : flipsOuter a.size b.size = false)
    {entries : List (Nat × α)} (he : Lists entries a.size fun i => a.getD i zero) :
    Lists (products entries (denseEntries b) b.size) (a.size * b.size) (outerCell a b) := by
  unfold outerCell
  simpa only [hf, Bool.false_eq_true, if_false, ExactProduct.mul_comm (b.getD _ zero)] using
    lists_products he (lists_denseEntries b)

/-- adding an operand once for each entry, scaled by it, in one run after the other -/
theorem runs_adds {entries : List (Nat × α)} {m : Nat} {u : Nat → α} (h : Lists entries m u) (a : Array α)
    {ci n : Nat} (hn : ci + m * a.size ≤ n) :
    (all (entries.map fun (i, s) => multAdd a s (ci + i * a.size))).Adds n
      ((products entries (denseEntries a) a.size).map fun e => (ci + e.1, e.2)) := by
  simp only [products, List.map_flatMap, List.map_map, Function.comp_def, ← Nat.add_assoc]
  refine adds_all fun e he => multAdd_adds a e.2 ?_
  have hrun : (e.1 + 1) * a.size ≤ m * a.size := Nat.mul_le_mul_right a.size (h.value he).1
  rw [Nat.succ_mul] at hrun
  omega

/-- the same for an operand that is given by its entries -/
theorem runsSparse_adds {outer inner : List (Nat × α)} {m width : Nat} {u w : Nat → α} (ho : Lists outer m u)
    (hi : Lists inner width w) {ci n : Nat} (hn : ci + m * width ≤ n) :
    (all (outer.map fun (i, s) => multAddSparse inner s (ci + i * width))).Adds n
      ((products outer inner width).map fun e => (ci + e.1, e.2)) := by
  simp only [products, List.map_flatMap, List.map_map, Function.comp_def, ← Nat.add_assoc]
  refine adds_all fun e he => multAddSparse_adds e.2 fun x hx => ?_
  have hlt := rowMajor_lt (ho.value he).1 (hi.value hx).1
  omega

/-- **Either form of an outer product** adds to each cell of its window the product that belongs there. -/
theorem IsOuter.adds [ExactProduct α] {a b : Array α} {w : Write α} {ci n : Nat} (h : IsOuter a b ci w)
    (hn : ci + a.size * b.size ≤ n) : ∃ terms, w.Adds n (terms.map fun e => (ci + e.1, e.2)) ∧
      Lists terms (a.size * b.size) (outerCell a b) := by
  have ha := lists_denseEntries a
  have hb := lists_denseEntries b
  cases h with
  | dense =>
    unfold outer
    cases hf : flipsOuter a.size b.size with
    | true =>
      rw [Nat.mul_comm a.size] at hn ⊢
      exact ⟨_, runs_adds hb.filter a hn, lists_flipped hf ha⟩
    | false => exact ⟨_, runs_adds ha.filter b hn, lists_plain hf ha.filter⟩
  | sparse hentries =>
    unfold outerSparse
    cases hf : flipsOuter a.size b.size with
    | true =>
      rw [Nat.mul_comm a.size] at hn ⊢
      exact ⟨_, runsSparse_adds hb.filter hentries hn, lists_flipped hf hentries⟩
    | false => exact ⟨_, runs_adds hentries b hn, lists_plain hf hentries⟩

end Write

/-- the call for a visit writes the outer product of `left` and `right` of the visit and nothing else, whatever it does
with the scratch vectors and whatever calls for the visits left in these -/
def Kernel.WritesOuter (k : Kernel α) (env : KernelEnv α) (visits : List (Visit α)) (arena : Scratch α) (cells : Nat)
    (left right : Visit α → Array α) : Prop :=
  ∀ v ∈ visits, ∀ s : RowState α cells, k.Lends env visits arena s.scratch →
    ∃ w scratch, Write.IsOuter (left v) (right v) 0 w ∧ k.step env v 0 s = RowM.write w ⟨s.out, scratch⟩

/-- a kernel that writes outer products of operands that fill the output accumulates these -/
theorem Kernel.WritesOuter.accumulates [ExactProduct α] {k : Kernel α} {env : KernelEnv α} {visits : List (Visit α)}
    {arena : Scratch α} {cells : Nat} {left right : Visit α → Array α}
    (h : k.WritesOuter env visits arena cells left right)
    (hsize : ∀ v ∈ visits, (left v).size * (right v).size = cells) :
    k.Accumulates env visits arena cells fun v => (List.range cells).map (Write.outerCell (left v) (right v)) := by
  intro v hv
  refine ⟨by simp, fun s hl => ?_⟩
  obtain ⟨w, scratch, houter, hstep⟩ := h v hv s hl
  obtain ⟨terms, hadds, hlists⟩ := houter.adds (by rw [hsize v hv, Nat.zero_add])
  rw [hsize v hv] at hlists
  refine ⟨⟨w.apply s.out, scratch⟩, ?_, hadds.toList_apply hlists s.out⟩
  rw [hstep]
  simp only [RowM.write, hadds.1, if_true]

namespace Fused

variable {op : Fused α} {inputs : List (Block α)} {scalars : List α} {p : Prepared α} {arena : Scratch α}

/-- where both layouts are decided alike, the place of a cell in the kernel's output holds the product of the operands
at that cell -/
theorem outerCell_layoutIndex {a b : Array α} (ha : a.size = p.rows) (hb : b.size = p.cols)
    (hflip : p.flip = Write.flipsOuter a.size b.size) {i j : Nat} (hi : i < p.rows) (hj : j < p.cols) :
    Write.outerCell a b (layoutIndex p i j) = a.getD i zero * b.getD j zero := by
  unfold Write.outerCell layoutIndex
  rw [hflip]
  split_ifs
  · rw [ha, rowMajor_mod j hi, rowMajor_div j hi]
  · rw [hb, rowMajor_mod i hj, rowMajor_div i hj]

/-- **A run of an outer type returns the sum of outer products.** The operands must be as long as the output is high and
wide. Then the operator and every write decide alike whether the output is laid out transposed, and the run returns a
block of the stated shape whose cell `(i, j)` is the sum over all rows, from first to last, of the left operand at `i`
times the right operand at `j`. -/
theorem execute_outer_sums [ExactProduct α] (op : Fused α) (inputs : List (Block α)) (scalars : List α)
    (left right : Visit α → Array α) (ht : op.rowType.isOuterB1 = true)
    (hp : op.prepare inputs scalars = .ok p) (ha : op.taskScratch p.env = .ok arena)
    (hsize : ∀ v ∈ p.main.visits ⟨0, p.main.rows⟩, (left v).size = p.rows ∧ (right v).size = p.cols)
    (hk : op.kernel.WritesOuter p.env (p.main.visits ⟨0, p.main.rows⟩) arena (p.rows * p.cols) left right) :
    (∀ v ∈ p.main.visits ⟨0, p.main.rows⟩, p.flip = Write.flipsOuter (left v).size (right v).size) ∧
    ∃ out, op.execute inputs scalars = .ok out ∧
      out.rows = p.rows ∧ out.cols = p.cols ∧ out.Sized ∧ out.nnz = countNonZero out.values ∧
      ∀ i < p.rows, ∀ j < p.cols, out.get? i j = some (((List.range p.main.rows).map fun row =>
        (left (p.main.visit row)).getD i zero * (right (p.main.visit row)).getD j zero).foldl (· + ·) zero) := by
  obtain ⟨-, -, -, hflip⟩ := prepare_ok hp
  have hagree : ∀ v ∈ p.main.visits ⟨0, p.main.rows⟩, p.flip = Write.flipsOuter (left v).size (right v).size := by
    intro v hv
    obtain ⟨hleft, hright⟩ := hsize v hv
    rw [hflip, ht, Bool.true_and, hleft, hright]
  have hw : op.rowType.aggregates = true := RowType.aggregates_of_isOuterB1 ht
  have hacc := hk.accumulates fun v hv => by rw [(hsize v hv).1, (hsize v hv).2]
  have hlen : ∀ g ∈ (p.main.visits ⟨0, p.main.rows⟩).map fun v =>
      (List.range (p.rows * p.cols)).map (Write.outerCell (left v) (right v)), g.length = p.rows * p.cols := by
    intro g hg
    obtain ⟨v, -, rfl⟩ := List.mem_map.1 hg
    simp
  obtain ⟨hrows, hcols, hsized, hnnz, hcells⟩ := closeOutput_cells (p := p) (length_sumCells hlen) rfl
  refine ⟨hagree, _, (execute_eq hp).trans (runFresh_sumCells hw ha hacc), hrows, hcols, hsized, hnnz,
    fun i hi j hj => ?_⟩
  have hplace := layoutIndex_lt hi hj
  rw [hcells i hi j hj, getElem?_sumCells hlen hplace, Block.visits_all, List.map_map, List.map_map]
  refine congrArg some (congrArg (List.foldl (· + ·) zero) (List.map_congr_left fun row hrow => ?_))
  have hv : p.main.visit row ∈ p.main.visits ⟨0, p.main.rows⟩ := by
    rw [Block.visits_all]
    exact List.mem_map_of_mem hrow
  have hcell := outerCell_layoutIndex (hsize _ hv).1 (hsize _ hv).2 (hagree _ hv) hi hj
  simpa [List.getD_eq_getElem?_getD, hplace] using hcell

end Fused

/-- the outer products of dense rows with the rows of a dense side input that has a row for each -/
theorem Kernel.outerB1T_writesOuter {env : KernelEnv α} {visits : List (Visit α)} (arena : Scratch α) (cells : Nat)
    {d : Dense α} (hside : env.side[0]? = some (.dense d))
    (hv : ∀ v ∈ visits, (∃ a, v.data = .dense a) ∧ d.row? v.row = some (d.row v.row)) :
    outerB1T.WritesOuter env visits arena cells (fun v => v.data.values) fun v => d.row v.row := by
  intro v hmem s _
  obtain ⟨⟨a, ha⟩, hrow⟩ := hv v hmem
  refine ⟨.outer v.data.values (d.row v.row) 0, s.scratch, .dense, ?_⟩
  simp [outerB1T, denseSideRow, KernelEnv.sideInput, hside, SideInput.denseRow?, hrow, RowM.inBounds, ha,
    RowData.values, bind, EStateM.bind, pure, EStateM.pure]

/-- the rows of a matrix times the rows of a side input, added up -/
def outerSums : Fused Int := ⟨.colAggB1T, .outerB1T, none, false, 0, { maxTasks := 1 }⟩

/-- two rows of 65 cells; beside a column they make an output of 65 rows, more than 64 times its one column -/
def tallRows : Dense Int := ⟨2, 65, Array.replicate 130 3, 130⟩

/-- a row of one cell for each -/
def sideColumn : Dense Int := ⟨2, 1, #[5, 7], 2⟩

/-- the last cell of the column is `3 * 5 + 3 * 7`, although the output was transposed on the way -/
theorem outer_sums_of_tall_rows :
    (∃ p, outerSums.prepare [.dense tallRows, .dense sideColumn] [] = .ok p ∧ p.flip = true) ∧
    ∃ out, outerSums.execute [.dense tallRows, .dense sideColumn] [] = .ok out ∧ out.rows = 65 ∧ out.cols = 1 ∧
      out.get? 64 0 = some 36 := by
  have hp : outerSums.prepare [.dense tallRows, .dense sideColumn] [] =
      .ok ⟨.dense tallRows, ⟨[.dense sideColumn], [], 65, some 1⟩, 65, 1, true⟩ := rfl
  have hrows : ∀ v ∈ (Block.dense tallRows).visits ⟨0, 2⟩, v = .ofDense tallRows 0 ∨ v = .ofDense tallRows 1 := by
    intro v hv
    have hlist : (Block.dense tallRows).visits ⟨0, 2⟩ = [.ofDense tallRows 0, .ofDense tallRows 1] := rfl
    simpa [hlist] using hv
  have harena : ∀ {env}, outerSums.taskScratch env = .ok .empty := rfl
  obtain ⟨-, out, hout, hrow, hcol, -, -, hcells⟩ := Fused.execute_outer_sums outerSums _ []
    (fun v => v.data.values) (fun v => sideColumn.row v.row) rfl hp harena
    (by
      intro v hv
      rcases hrows v hv with rfl | rfl <;>
        exact ⟨by simp [Visit.ofDense, RowData.values, Dense.row, Dense.pos, tallRows], rfl⟩)
    (by
      refine Kernel.outerB1T_writesOuter .empty _ rfl fun v hv => ?_
      rcases hrows v hv with rfl | rfl <;> exact ⟨⟨_, rfl⟩, rfl⟩)
  refine ⟨⟨_, hp, rfl⟩, out, hout, hrow, hcol, (hcells 64 (by decide) 0 (by decide)).trans ?_⟩
  decide +kernel

end MatrixEngine
