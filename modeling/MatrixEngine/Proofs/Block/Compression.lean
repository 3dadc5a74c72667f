/-
A compressed block decodes to the rows of the dense block it was made of.

- `codes_encode`: the dictionary of a group gives back the tuple of every row that was coded.
- `flatMap_columnRuns`: the runs of columns are the columns in order.
- `row_ofDense`: row by row, decoding gives the cells of the dense block.
- `get?_ofDense`, `toDense_ofDense`: so do single cells, and the decoded block is the dense block.
- `isEmpty_ofDense_iff`: the compressed block counts as empty exactly if all cells are numerically zero.
-/
import MatrixEngine.Proofs.Block.Cells
import MatrixEngine.Proofs.Block.Dictionaries
import MatrixEngine.Proofs.Number.Sums
import MatrixEngine.Proofs.Sequence

namespace MatrixEngine

open Cell

variable {α : Type} [Cell α]

/-! ## The dictionary of a group -/

namespace ColumnGroup

/-- a group codes the rows of a block in the given columns -/
structure Codes (g : ColumnGroup α) (d : Dense α) (run : Array Nat) : Prop where
  cols : g.cols = run
  count : g.codes.size = d.rows
  tuple : ∀ i < d.rows, g.tuple? i = some (tupleOf d run i)

theorem Codes.nnz_eq {d : Dense α} {cols : Array Nat} {g : ColumnGroup α} (hg : g.Codes d cols) :
    g.nnz = total ((List.range d.rows).map fun i => countNonZero (tupleOf d cols i)) := by
  rw [nnz, foldl_add_eq_total, Nat.zero_add, hg.count]
  congr 1
  refine List.map_congr_left fun i hi => ?_
  rw [hg.tuple i (List.mem_range.1 hi), Option.getD_some]

theorem Codes.nnz_eq_zero_iff {d : Dense α} {cols : Array Nat} {g : ColumnGroup α} (hg : g.Codes d cols) :
    g.nnz = 0 ↔ ∀ i < d.rows, ∀ j ∈ cols, isZero (d.cell i j) = true := by
  rw [hg.nnz_eq, total_eq_zero_iff, List.forall_mem_map]
  refine forall_congr' fun i => ?_
  rw [List.mem_range]
  refine forall_congr' fun hi => ?_
  rw [countNonZero, Array.countP_eq_zero]
  simp [tupleOf, isNonZero, Dense.cell]

variable [DecidableEq α]

/-- **The dictionary of a group** gives back the tuple of every row of the block. -/
theorem codes_encode {d : Dense α} {cols : Array Nat} {g : ColumnGroup α} (h : encode d cols = .ok g) :
    g.Codes d cols := by
  rw [encode_eq] at h
  split_ifs at h
  obtain rfl := Except.ok.inj h
  refine ⟨rfl, by simp [rowTuples], fun i hi => ?_⟩
  have hmem : tupleOf d cols i ∈ (rowTuples d cols).eraseDups :=
    List.mem_eraseDups.2 (List.mem_of_getElem? (getElem?_rowTuples cols hi))
  simp only [tuple?, List.getElem?_toArray, List.getElem?_map, getElem?_rowTuples cols hi, Option.map_some, bind,
    Option.bind, List.getElem?_idxOf hmem]

end ColumnGroup

/-! ## Runs of columns -/

namespace Compressed

/-- run `k` begins `k` widths on, and goes on for a width or to the last column -/
theorem getElem?_runsFrom {cols width start k : Nat} {run : Array Nat}
    (h : (runsFrom cols width start)[k]? = some run) :
    start + k * width < cols ∧
      run = Array.range' (start + k * width) (min width (cols - (start + k * width))) := by
  fun_induction runsFrom cols width start generalizing k with
  | case1 start hrun ih =>
    cases k with
    | zero =>
      have hsize : min (start + width) cols - start = min width (cols - start) := by omega
      rw [List.getElem?_cons_zero, Option.some.injEq, hsize] at h
      rw [Nat.zero_mul, Nat.add_zero]
      exact ⟨hrun.1, h.symm⟩
    | succ k =>
      obtain ⟨hlt, hrest⟩ := ih h
      have hplace : start + (k + 1) * width = min (start + width) cols + k * width := by
        rw [Nat.succ_mul]
        omega
      rw [hplace]
      exact ⟨hlt, hrest⟩
  | case2 start hend => cases h

theorem size_pos_of_mem_columnRuns {cols width : Nat} (hw : 0 < width) {run : Array Nat}
    (h : run ∈ columnRuns cols width) : 0 < run.size := by
  obtain ⟨k, hk⟩ := List.mem_iff_getElem?.1 h
  obtain ⟨hlt, rfl⟩ := getElem?_runsFrom hk
  rw [Array.size_range', Nat.lt_min]
  omega

/-- **The runs of columns** are the columns in order. -/
theorem flatMap_columnRuns {cols width : Nat} (hw : 0 < width) :
    (columnRuns cols width).flatMap Array.toList = List.range cols := by
  have hrest : ∀ start, (runsFrom cols width start).flatMap Array.toList = List.range' start (cols - start) := by
    intro start
    fun_induction runsFrom cols width start with
    | case1 start hrun ih =>
      have hend : min (start + width) cols - start + (cols - min (start + width) cols) = cols - start := by omega
      have hstop : start + (min (start + width) cols - start) = min (start + width) cols := by omega
      rw [List.flatMap_cons, ih, Array.toList_range', ← hend, ← List.range'_append_1, hstop]
    | case2 start hend =>
      have hnone : cols - start = 0 := by omega
      rw [hnone, List.flatMap_nil, List.range'_zero]
  rw [columnRuns, hrest, Nat.sub_zero, List.range_eq_range']

theorem mem_columnRuns {cols width j : Nat} (hw : 0 < width) :
    (∃ run ∈ columnRuns cols width, j ∈ run) ↔ j < cols := by
  rw [← List.mem_range, ← flatMap_columnRuns hw, List.mem_flatMap]
  simp only [Array.mem_toList_iff]

variable [DecidableEq α] {d : Dense α} {width : Nat} {c : Compressed α}

/-- a compressed block has the code of every run of columns as a group -/
theorem ofDense_encoded (h : ofDense d width = .ok c) :
    0 < width ∧ c.rows = d.rows ∧ c.cols = d.cols ∧ c.nnz = total (c.groups.map (·.nnz)) ∧
      List.Forall₂ (fun run g => ColumnGroup.encode d run = .ok g) (columnRuns d.cols width) c.groups := by
  unfold ofDense at h
  by_cases hw : width = 0
  · simp [hw, bind, Except.bind, throw, throwThe, MonadExceptOf.throw] at h
  · cases hg : (columnRuns d.cols width).mapM (ColumnGroup.encode d) with
    | error e => simp [hw, hg, bind, Except.bind] at h
    | ok groups =>
      simp only [hw, hg, bind, Except.bind, pure, Except.pure, if_false, Except.ok.injEq] at h
      subst h
      exact ⟨Nat.pos_of_ne_zero hw, rfl, rfl, rfl, Sequence.mapM_ok_iff.1 hg⟩

/-- a compressed block has a group for every run of columns, with the dictionary of these columns -/
theorem ofDense_ok (h : ofDense d width = .ok c) :
    0 < width ∧ c.rows = d.rows ∧ c.cols = d.cols ∧ c.nnz = total (c.groups.map (·.nnz)) ∧
      List.Forall₂ (fun run g => g.Codes d run) (columnRuns d.cols width) c.groups := by
  obtain ⟨hw, hrows, hcols, hnnz, hgroups⟩ := ofDense_encoded h
  exact ⟨hw, hrows, hcols, hnnz, hgroups.imp fun run g => ColumnGroup.codes_encode⟩

theorem tuple_ofDense (h : ofDense d width = .ok c) {i : Nat} (hi : i < d.rows) :
    List.Forall₂ (fun run g => g.cols = run ∧ g.tuple? i = some (ColumnGroup.tupleOf d run i))
      (columnRuns d.cols width) c.groups := by
  obtain ⟨-, -, -, -, hgroups⟩ := ofDense_ok h
  exact hgroups.imp fun run g hg => ⟨hg.cols, hg.tuple i hi⟩

/-- the entries that the groups write into row `i`: every cell of the dense row -/
theorem entries_ofDense (h : ofDense d width = .ok c) {i : Nat} (hi : i < d.rows) :
    (c.groups.flatMap fun g => g.cols.toList.zip ((g.tuple? i).getD #[]).toList) =
      (List.range d.cols).map fun j => (j, d.cell i j) := by
  have hgroup : ∀ (run : Array Nat) (g : ColumnGroup α),
      g.cols = run ∧ g.tuple? i = some (ColumnGroup.tupleOf d run i) →
      g.cols.toList.zip ((g.tuple? i).getD #[]).toList = run.toList.map fun j => (j, d.cell i j) := by
    rintro run g ⟨hcols, htuple⟩
    simp [hcols, htuple, ColumnGroup.tupleOf, List.map_prod_left_eq_zip, Dense.cell]
  obtain ⟨hw, -, -, -, -⟩ := ofDense_ok h
  rw [← flatMap_columnRuns hw, List.map_flatMap, List.flatMap_def, List.flatMap_def]
  congr 1
  have hgroups := tuple_ofDense h hi
  generalize columnRuns d.cols width = runs, c.groups = groups at hgroups ⊢
  induction hgroups with
  | nil => rfl
  | cons hg _ ih => rw [List.map_cons, List.map_cons, hgroup _ _ hg, ih]

/-- **Decoding a row** gives the cells of the dense block. -/
theorem row_ofDense (h : ofDense d width = .ok c) (hd : d.Full) {i : Nat} (hi : i < d.rows) : c.row i = d.row i := by
  obtain ⟨-, -, hcols, -, -⟩ := ofDense_ok h
  have hrow : c.row i = ((List.range d.cols).map fun j => (j, d.cell i j)).foldl
      (fun out e => out.setIfInBounds e.1 e.2) (Cell.zeros d.cols) := by
    rw [← entries_ofDense h hi, List.foldl_flatMap, ← hcols]
    rfl
  have hagree : ∀ e ∈ (List.range d.cols).map fun j => (j, d.cell i j), e.2 = d.cell i e.1 := by
    intro e he
    obtain ⟨j, -, rfl⟩ := List.mem_map.1 he
    rfl
  have hsize : (c.row i).size = d.cols := by rw [hrow, size_foldl_set, size_zeros]
  refine Array.ext_getElem? fun j => ?_
  rcases Nat.lt_or_ge j d.cols with hj | hj
  · have hkey : j ∈ ((List.range d.cols).map fun j => (j, d.cell i j)).map (·.1) := by
      rw [List.map_map]
      exact List.mem_map.2 ⟨j, List.mem_range.2 hj, rfl⟩
    rw [hrow, getElem?_foldl_set hagree (by simpa using hj), if_pos hkey, Dense.getElem?_row hj, hd.get?_eq hi hj]
  · rw [Array.getElem?_eq_none (by omega), Array.getElem?_eq_none (by rw [hd.size_row hi]; exact hj)]

theorem get?_ofDense (h : ofDense d width = .ok c) {i j : Nat} (hi : i < d.rows) (hj : j < d.cols) :
    c.get? i j = some (d.cell i j) := by
  obtain ⟨hw, -, -, -, -⟩ := ofDense_ok h
  have hgroups := tuple_ofDense h hi
  unfold get?
  cases hfind : c.groups.find? fun g => g.cols.contains j with
  | none =>
    obtain ⟨run, hrun, hmem⟩ := (mem_columnRuns hw).2 hj
    obtain ⟨g, hg, hcols, -⟩ := Sequence.exists_right hgroups hrun
    have hnot := List.find?_eq_none.1 hfind g hg
    simp [hcols, hmem] at hnot
  | some g =>
    obtain ⟨run, -, hcols, htuple⟩ := Sequence.exists_left hgroups (List.mem_of_find?_eq_some hfind)
    have hmem : j ∈ g.cols := by simpa using List.find?_some hfind
    cases hidx : g.cols.idxOf? j with
    | none => exact absurd hmem (by simpa using hidx)
    | some k =>
      have hk : g.cols[k]? = some j := by
        obtain ⟨l, hl⟩ : ∃ l : List Nat, g.cols = l.toArray := ⟨g.cols.toList, by simp⟩
        rw [hl, List.idxOf?_toArray, List.idxOf?_eq_some_iff] at hidx
        obtain ⟨hlt, hk, -⟩ := hidx
        rw [hl, List.getElem?_toArray, List.getElem?_eq_getElem hlt, hk]
      simp only [bind, Option.bind, htuple, hidx, ColumnGroup.tupleOf, ← hcols, Array.getElem?_map, hk, Option.map_some]
      rfl

/-- **Decoding the whole block** gives back the cells of the dense block. -/
theorem toDense_ofDense (h : ofDense d width = .ok c) (hd : d.Sized) :
    c.toDense = ⟨d.rows, d.cols, d.values, c.nnz⟩ := by
  obtain ⟨-, hrows, hcols, -, -⟩ := ofDense_ok h
  have hvalues : (List.range c.rows).foldl (fun out i => out ++ c.row i) #[] = d.values := by
    rw [← hd.foldl_row, hrows]
    exact List.foldl_ext _ _ _ fun out i hi => by rw [row_ofDense h hd.full (List.mem_range.1 hi)]
  unfold toDense
  rw [hvalues, hrows, hcols]

/-- **A compressed block counts as empty** exactly if all cells of the dense block are numerically zero. -/
theorem isEmpty_ofDense_iff (h : ofDense d width = .ok c) :
    c.isEmpty = true ↔ ∀ i < d.rows, ∀ j < d.cols, isZero (d.cell i j) = true := by
  obtain ⟨hw, -, -, hnnz, hgroups⟩ := ofDense_ok h
  have hall : (∀ g ∈ c.groups, g.nnz = 0) ↔
      ∀ run ∈ columnRuns d.cols width, ∀ i < d.rows, ∀ j ∈ run, isZero (d.cell i j) = true := by
    generalize columnRuns d.cols width = runs, c.groups = groups at hgroups ⊢
    induction hgroups with
    | nil => simp
    | cons hg _ ih => rw [List.forall_mem_cons, List.forall_mem_cons, hg.nnz_eq_zero_iff, ih]
  rw [isEmpty, beq_iff_eq, hnnz, total_eq_zero_iff, List.forall_mem_map, hall]
  constructor
  · intro hzero i hi j hj
    obtain ⟨run, hrun, hmem⟩ := (mem_columnRuns hw).2 hj
    exact hzero run hrun i hi j hmem
  · intro hzero run hrun i hi j hj
    exact hzero i hi j ((mem_columnRuns hw).1 ⟨run, hrun, hj⟩)

end Compressed

end MatrixEngine
