/-
Compression loses nothing.

A dense block is coded whatever its cells are, as long as no run of columns has more distinct row tuples than there are
codes (`exists_ofDense`). The groups are the runs of columns in order, each with a dictionary that numbers its distinct
tuples (`ColumnGroup.Numbers`), and the stored count is the number of cells that are not zero (`nnz_ofDense`): counted
group by group it is the same sum as counted row by row.
-/
import MatrixEngine.Proofs.Block.Compression
import MatrixEngine.Proofs.Block.SparseRows

namespace MatrixEngine

open Cell

/-- parts of one length end to end: part `k` begins behind `k` lengths -/
theorem extract_flatten_of_even {β : Type} {parts : Array (Array β)} {w : Nat} (h : ∀ p ∈ parts, p.size = w) {k : Nat}
    {p : Array β} (hk : parts[k]? = some p) : parts.flatten.extract (k * w) ((k + 1) * w) = p := by
  obtain ⟨hlt, rfl⟩ := Array.getElem?_eq_some_iff.1 hk
  have hlt' : k < (parts.toList.map Array.toList).length := by simpa using hlt
  have hfront : ∀ n ≤ parts.size, total (((parts.toList.map Array.toList).take n).map List.length) = n * w := by
    intro n hn
    have heven : ∀ m ∈ ((parts.toList.map Array.toList).take n).map List.length, m = w := by
      intro m hm
      obtain ⟨l, hl, rfl⟩ := List.mem_map.1 hm
      obtain ⟨p, hp, rfl⟩ := List.mem_map.1 (List.mem_of_mem_take hl)
      exact h p (Array.mem_toList_iff.1 hp)
    rw [total_of_even heven, List.length_map, List.length_take, List.length_map, Array.length_toList,
      Nat.min_eq_left hn]
  have hpart := extract_flatten hlt'
  have hall : (parts.toList.map Array.toList).flatten.toArray = parts.flatten := by
    rw [← Array.toList_flatten]
  rw [hfront k hlt.le, hfront (k + 1) hlt, hall, List.getElem_map, Array.getElem_toList, Array.toArray_toList] at hpart
  exact hpart

variable {α : Type} [Cell α]

/-! ## Dictionaries -/

namespace ColumnGroup

/-- how many distinct tuples the rows have in the given columns -/
def distinctTuples [DecidableEq α] (d : Dense α) (cols : Array Nat) : Nat :=
  ((Finset.range d.rows).image (tupleOf d cols)).card

variable [DecidableEq α]

theorem distinctTuples_le (d : Dense α) (cols : Array Nat) : distinctTuples d cols ≤ d.rows :=
  Finset.card_image_le.trans (Finset.card_range d.rows).le

/-- a group codes the rows of a block, and its dictionary numbers their distinct tuples in order of first appearance;
they are as many values wide as the group has columns, and found by their offsets when they are laid end to end -/
structure Numbers (g : ColumnGroup α) (d : Dense α) : Prop extends g.Codes d g.cols where
  distinct : g.tuples.toList.Nodup
  firstSeen : g.tuples.toList = (rowTuples d g.cols).eraseDups
  wide : ∀ t ∈ g.tuples, t.size = g.cols.size
  offsets : ∀ k t, g.tuples[k]? = some t → g.tuples.flatten.extract (k * g.cols.size) ((k + 1) * g.cols.size) = t
  numbered : g.tuples.size ≤ Coder.capacity
  valid : ∀ k ∈ g.codes, k < g.tuples.size

theorem length_eraseDups_rowTuples (d : Dense α) (cols : Array Nat) :
    (rowTuples d cols).eraseDups.length = distinctTuples d cols := by
  rw [← List.toFinset_card_of_nodup (nodup_eraseDups _), distinctTuples]
  congr 1
  ext t
  simp [rowTuples]

theorem numbers_encode {d : Dense α} {cols : Array Nat} {g : ColumnGroup α} (h : encode d cols = .ok g) :
    g.Numbers d := by
  have hcodes := codes_encode h
  rw [encode_eq] at h
  split_ifs at h with hroom
  obtain rfl := Except.ok.inj h
  have hwide : ∀ t ∈ (rowTuples d cols).eraseDups.toArray, t.size = cols.size := fun t ht =>
    size_of_mem_rowTuples (List.mem_eraseDups.1 (List.mem_toArray.1 ht))
  constructor
  case toCodes => exact hcodes
  case distinct => exact nodup_eraseDups _
  case firstSeen => rfl
  case wide => exact hwide
  case offsets => exact fun k t hk => extract_flatten_of_even hwide hk
  case numbered => simpa using hroom
  case valid =>
    intro k hk
    obtain ⟨t, ht, rfl⟩ := List.mem_map.1 (List.mem_toArray.1 hk)
    exact List.idxOf_lt_length_of_mem (List.mem_eraseDups.2 ht)

end ColumnGroup

namespace Compressed

variable [DecidableEq α] {d : Dense α} {width : Nat} {c : Compressed α}

/-- a dense block is coded if its groups have no more distinct tuples than there are codes -/
theorem exists_ofDense (hw : 0 < width)
    (hroom : ∀ run ∈ columnRuns d.cols width, ColumnGroup.distinctTuples d run ≤ Coder.capacity) :
    ∃ c, ofDense d width = .ok c := by
  have hencoded : ∀ run ∈ columnRuns d.cols width, ∃ g, ColumnGroup.encode d run = .ok g := by
    intro run hrun
    refine ⟨_, (ColumnGroup.encode_eq d run).trans (if_pos ?_)⟩
    rw [ColumnGroup.length_eraseDups_rowTuples]
    exact hroom run hrun
  cases hgroups : (columnRuns d.cols width).mapM (ColumnGroup.encode d) with
  | ok groups =>
    refine ⟨⟨d.rows, d.cols, groups, total (groups.map (·.nnz))⟩, ?_⟩
    simp [ofDense, hw.ne', hgroups, bind, Except.bind, pure, Except.pure]
  | error e =>
    -- a sequence fails only in a step of its own
    obtain ⟨before, run, after, hruns, -, hrun⟩ := Sequence.mapM_error_iff.1 hgroups
    obtain ⟨g, hg⟩ := hencoded run (by simp [hruns])
    rw [hg] at hrun
    cases hrun

/-! ## Groups -/

theorem cols_ofDense (h : ofDense d width = .ok c) : c.groups.map (·.cols) = columnRuns d.cols width := by
  obtain ⟨-, -, -, -, hgroups⟩ := ofDense_ok h
  generalize columnRuns d.cols width = runs, c.groups = groups at hgroups ⊢
  induction hgroups with
  | nil => rfl
  | cons hg _ ih => rw [List.map_cons, hg.cols, ih]

/-- groups are not empty, and all but the last have the full width -/
theorem size_cols_ofDense (h : ofDense d width = .ok c) {k : Nat} {g : ColumnGroup α} (hk : c.groups[k]? = some g) :
    0 < g.cols.size ∧ g.cols.size ≤ width ∧ (k + 1 < c.groups.length → g.cols.size = width) := by
  obtain ⟨hw, -, -, -, -⟩ := ofDense_ok h
  have hcols := cols_ofDense h
  have hrun : ∀ {k : Nat} {g : ColumnGroup α}, c.groups[k]? = some g →
      k * width < d.cols ∧ g.cols = Array.range' (k * width) (min width (d.cols - k * width)) := by
    intro k g hk
    have hplace : (columnRuns d.cols width)[k]? = some g.cols := by
      rw [← hcols, List.getElem?_map, hk, Option.map_some]
    have hrun := getElem?_runsFrom hplace
    rwa [Nat.zero_add] at hrun
  obtain ⟨hlt, hg⟩ := hrun hk
  rw [hg, Array.size_range']
  refine ⟨by omega, Nat.min_le_left _ _, fun hnext => ?_⟩
  obtain ⟨hlt', -⟩ := hrun (List.getElem?_eq_getElem hnext)
  rw [Nat.succ_mul] at hlt'
  omega

theorem numbers_ofDense (h : ofDense d width = .ok c) : ∀ g ∈ c.groups, g.Numbers d := by
  obtain ⟨-, -, -, -, hgroups⟩ := ofDense_encoded h
  intro g hg
  obtain ⟨run, -, hrun⟩ := Sequence.exists_left hgroups hg
  exact ColumnGroup.numbers_encode hrun

/-! ## Counting -/

omit [DecidableEq α] in
theorem total_countNonZero_tupleOf (hd : d.Sized) (hw : 0 < width) {i : Nat} (hi : i < d.rows) :
    total ((columnRuns d.cols width).map fun run => countNonZero (ColumnGroup.tupleOf d run i)) =
      countNonZero (d.row i) := by
  have hruns : ∀ runs : List (Array Nat), total (runs.map fun run => countNonZero (ColumnGroup.tupleOf d run i)) =
      ((runs.flatMap Array.toList).map (d.cell i)).countP isNonZero := by
    intro runs
    induction runs with
    | nil => rfl
    | cons run runs ih =>
      have hrun : countNonZero (ColumnGroup.tupleOf d run i) = (run.toList.map (d.cell i)).countP isNonZero := by
        rw [countNonZero, ← Array.countP_toList, ColumnGroup.tupleOf, Array.toList_map]
        rfl
      rw [List.map_cons, total_cons, ih, hrun, List.flatMap_cons, List.map_append, List.countP_append]
  rw [hruns, flatMap_columnRuns hw, ← hd.toList_row hi, Array.countP_toList]
  rfl

/-- **The stored count** is the number of cells that are not zero. -/
theorem nnz_ofDense (h : ofDense d width = .ok c) (hd : d.Sized) : c.nnz = countNonZero d.values := by
  obtain ⟨hw, -, -, hnnz, hgroups⟩ := ofDense_ok h
  have hcounts : c.groups.map (·.nnz) = (columnRuns d.cols width).map fun run =>
      total ((List.range d.rows).map fun i => countNonZero (ColumnGroup.tupleOf d run i)) := by
    generalize columnRuns d.cols width = runs, c.groups = groups at hgroups ⊢
    induction hgroups with
    | nil => rfl
    | cons hg _ ih => rw [List.map_cons, List.map_cons, hg.nnz_eq, ih]
  calc c.nnz = total (c.groups.map (·.nnz)) := hnnz
    _ = total ((List.range d.rows).map fun i =>
          total ((columnRuns d.cols width).map fun run => countNonZero (ColumnGroup.tupleOf d run i))) := by
        rw [hcounts, total_comm]
    _ = total ((List.range d.rows).map fun i => countNonZero (d.row i)) := by
        congr 1
        exact List.map_congr_left fun i hi => total_countNonZero_tupleOf hd hw (List.mem_range.1 hi)
    _ = countNonZero d.values := hd.total_countNonZero_row

/-- **Compression loses nothing.** A dense block of any cells and any stored count is coded in groups of any width,
unless a group has more distinct tuples than there are codes. The groups are the columns in order, of the given width
but for the last; each dictionary has its distinct tuples in order of first appearance; decoding gives the dimensions
and the cells back, as looking them up does one by one; and the count is exact. -/
theorem ofDense_lossless (hd : d.Sized) (hw : 0 < width)
    (hroom : ∀ run ∈ columnRuns d.cols width, ColumnGroup.distinctTuples d run ≤ Coder.capacity) :
    ∃ c, ofDense d width = .ok c ∧ (c.rows = d.rows ∧ c.cols = d.cols) ∧
      (c.groups.flatMap (·.cols.toList) = List.range d.cols ∧ ∀ k g, c.groups[k]? = some g →
        0 < g.cols.size ∧ g.cols.size ≤ width ∧ (k + 1 < c.groups.length → g.cols.size = width)) ∧
      (∀ g ∈ c.groups, g.Numbers d) ∧
      (c.toDense.rows = d.rows ∧ c.toDense.cols = d.cols ∧ c.toDense.values = d.values) ∧
      (∀ i < d.rows, ∀ j < d.cols, ∃ v, d.get? i j = some v ∧ c.get? i j = some v) ∧
      c.nnz = countNonZero d.values := by
  obtain ⟨c, hc⟩ := exists_ofDense hw hroom
  obtain ⟨-, hrows, hcols, -, -⟩ := ofDense_ok hc
  have hdense := toDense_ofDense hc hd
  refine ⟨c, hc, ⟨hrows, hcols⟩, ⟨?_, fun k g hk => size_cols_ofDense hc hk⟩, numbers_ofDense hc, ?_, ?_,
    nnz_ofDense hc hd⟩
  · rw [← flatMap_columnRuns hw, ← cols_ofDense hc, List.flatMap_map]
  · rw [hdense]
    exact ⟨rfl, rfl, rfl⟩
  · intro i hi j hj
    exact ⟨_, hd.get?_eq hi hj, get?_ofDense hc hi hj⟩

/-- three rows of which the first two differ in the sign of a zero -/
def signs : Dense Float :=
  ⟨3, 3, #[.ofBits 0x8000000000000000, .ofBits 0x3ff0000000000000, .ofBits 0,
    .ofBits 0, .ofBits 0x3ff0000000000000, .ofBits 0x7ff8000000000000,
    .ofBits 0x8000000000000000, .ofBits 0x3ff0000000000000, .ofBits 0], 8⟩

/-- in groups of two columns the signs are told apart: the third row has the code of the first -/
theorem signs_come_back : signs.Sized ∧ ∃ c, ofDense signs 2 = .ok c ∧
    c.groups.map (·.codes) = [#[0, 1, 0], #[0, 1, 0]] ∧ c.toDense.values = signs.values ∧
    c.get? 2 0 = some (Float.ofBits 0x8000000000000000) ∧ c.nnz = 4 := by
  have hsized : signs.Sized := rfl
  have hroom : ∀ run ∈ columnRuns signs.cols 2, ColumnGroup.distinctTuples signs run ≤ Coder.capacity := fun run _ =>
    (ColumnGroup.distinctTuples_le signs run).trans (by decide)
  obtain ⟨c, hc, -, -, -, ⟨-, -, hvalues⟩, hcells, hnnz⟩ := ofDense_lossless hsized (by decide) hroom
  obtain ⟨v, hv, hget⟩ := hcells 2 (by decide) 0 (by decide)
  obtain rfl := Option.some.inj hv
  have hcodes : (ofDense signs 2).map (fun c => c.groups.map (·.codes)) = .ok [#[0, 1, 0], #[0, 1, 0]] := by
    decide +kernel
  rw [hc] at hcodes
  exact ⟨hsized, c, hc, Except.ok.inj hcodes, hvalues, hget, hnnz.trans (by decide +kernel)⟩

end Compressed

end MatrixEngine
