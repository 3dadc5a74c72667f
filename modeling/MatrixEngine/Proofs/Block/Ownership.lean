/-
Which stored entries belong to a row, and what transposing makes of them.

The layout checks tie the starts of rows to each other and the last one to the number of entries, but leave the first
one open. Rows own the entries from the first start on (`LaidOut.total_size`), and the entries before it belong to no
row. Transposing gives each column as many entries as it has indexes, so an entry without a row leaves a zero at row 0
behind.
- `laidOut_ofEntries`: entries with ascending columns in range, row by row, are laid out soundly.
- `columnSlots_of_owned`: where the first start is zero, transposing lists the entries of each column and nothing else.
- `ofParts_owned_iff`: an accepted layout owns all its entries and transposes cell by cell exactly if its first start is
  zero.
-/
import MatrixEngine.Proofs.Block.CountingSort
import MatrixEngine.Proofs.Block.SparseCells
import MatrixEngine.Proofs.Block.SparseRows
import MatrixEngine.Proofs.Number.Sums

namespace MatrixEngine

/-! ## Running totals -/

theorem le_of_mem_runningTotals {start t : Nat} {sizes : List Nat} (h : t ∈ runningTotals start sizes) : start ≤ t := by
  induction sizes generalizing start with
  | nil => exact (List.mem_singleton.1 h).ge
  | cons n sizes ih =>
    rcases List.mem_cons.1 h with rfl | h
    · exact le_rfl
    · exact (Nat.le_add_right start n).trans (ih h)

theorem pairwise_runningTotals (start : Nat) (sizes : List Nat) :
    (runningTotals start sizes).Pairwise (· ≤ ·) := by
  induction sizes generalizing start with
  | nil => exact List.pairwise_singleton _ _
  | cons n sizes ih =>
    exact List.pairwise_cons.2 ⟨fun t ht => (Nat.le_add_right start n).trans (le_of_mem_runningTotals ht), ih _⟩

namespace Sparse

open Cell

variable {α : Type} {s : Sparse α}

/-! ## Entries and rows -/

theorem LaidOut.pos_mono (h : s.LaidOut) {i j : Nat} (hij : i ≤ j) (hj : j ≤ s.rows) : s.pos i ≤ s.pos j := by
  rcases hij.eq_or_lt with rfl | hlt
  · exact le_rfl
  · have hsize : s.starts.size = s.rows + 1 := h.startCount
    have hle := List.pairwise_iff_getElem.1 h.starts i j (by simp; omega) (by simp; omega) hlt
    simpa [pos, Array.getD, show i < s.starts.size by omega, show j < s.starts.size by omega] using hle

theorem LaidOut.getElem?_starts (h : s.LaidOut) {i : Nat} (hi : i ≤ s.rows) : s.starts[i]? = some (s.pos i) := by
  have hlt : i < s.starts.size := by
    rw [h.startCount]
    omega
  rw [pos, Array.getD_eq_getD_getElem?, Array.getElem?_eq_getElem hlt, Option.getD_some]

theorem LaidOut.ofParts_eq (h : s.LaidOut) : ofParts s.rows s.cols s.starts s.indexes s.values = .ok s := by
  simp only [ofParts, layoutFault?_eq_none_iff.2 h]

/-- the sizes of rows add up to the entries from the first start on -/
theorem LaidOut.total_size (h : s.LaidOut) {n : Nat} (hn : n ≤ s.rows) :
    total ((List.range n).map s.size) + s.pos 0 = s.pos n := by
  induction n with
  | zero => simp
  | succ n ih =>
    have hle : s.pos n ≤ s.pos (n + 1) := h.pos_mono (Nat.le_succ n) hn
    have hfront := ih (by omega)
    rw [total_map_range_succ, size]
    omega

/-- the indexes of rows one after the other are the indexes from the first start on -/
theorem LaidOut.flatMap_rowIndexes (h : s.LaidOut) {n : Nat} (hn : n ≤ s.rows) :
    ((List.range n).flatMap fun i => (s.rowIndexes i).toList) = (s.indexes.extract (s.pos 0) (s.pos n)).toList := by
  induction n with
  | zero => simp
  | succ n ih =>
    have hfirst : s.pos 0 ≤ s.pos n := h.pos_mono (Nat.zero_le n) (by omega)
    have hnext : s.pos n ≤ s.pos (n + 1) := h.pos_mono (Nat.le_succ n) hn
    rw [List.range_succ, List.flatMap_append, ih (by omega), List.flatMap_singleton, rowIndexes, ← Array.toList_append,
      Array.extract_append_extract, Nat.min_eq_left hfirst, Nat.max_eq_right hnext]

/-- an entry belongs to row `i` -/
def Owns (s : Sparse α) (i k : Nat) : Prop := s.pos i ≤ k ∧ k < s.pos (i + 1)

theorem exists_owner {n k : Nat} (hfirst : s.pos 0 ≤ k) (hlast : k < s.pos n) : ∃ i < n, s.Owns i k := by
  induction n with
  | zero => omega
  | succ n ih =>
    rcases Nat.lt_or_ge k (s.pos n) with hlt | hge
    · obtain ⟨i, hi, howns⟩ := ih hlt
      exact ⟨i, by omega, howns⟩
    · exact ⟨n, by omega, hge, hlast⟩

theorem LaidOut.owner_unique (h : s.LaidOut) {i j k : Nat} (hi : i < s.rows) (hj : j < s.rows) (howns : s.Owns i k)
    (howns' : s.Owns j k) : i = j := by
  obtain ⟨hi₁, hi₂⟩ := howns
  obtain ⟨hj₁, hj₂⟩ := howns'
  rcases Nat.lt_trichotomy i j with hlt | heq | hlt
  · have := h.pos_mono (show i + 1 ≤ j by omega) hj.le
    omega
  · exact heq
  · have := h.pos_mono (show j + 1 ≤ i by omega) hi.le
    omega

/-! ## Blocks built from the entries of their rows -/

theorem rowEntries_ofEntries {cols : Nat} {entries : List (List (Nat × α))} {i : Nat} (hi : i < entries.length) :
    (ofEntries cols entries).rowEntries i = entries[i] := by
  rw [rowEntries, rowIndexes_ofEntries hi, rowValues_ofEntries hi]
  exact (List.zip_of_prod rfl rfl).symm

/-- entries with ascending columns in range, row by row, are laid out soundly -/
theorem laidOut_ofEntries {cols : Nat} {entries : List (List (Nat × α))}
    (hascend : ∀ row ∈ entries, (row.map (·.1)).Pairwise (· < ·)) (hcols : ∀ row ∈ entries, ∀ e ∈ row, e.1 < cols) :
    (ofEntries cols entries).LaidOut where
  startCount := by simp [ofEntries, length_runningTotals]
  partsAgree := by simp only [ofEntries, List.size_toArray, List.length_map]
  last := by
    have hrows : (ofEntries cols entries).rows = entries.length := rfl
    rw [hrows, pos_ofEntries le_rfl, List.take_length, total_map_length]
    simp only [ofEntries, List.size_toArray, List.length_map]
  starts := by
    rw [ofEntries, List.toList_toArray]
    exact pairwise_runningTotals 0 _
  columns := by
    intro j hj
    obtain ⟨e, he, rfl⟩ := List.mem_map.1 (List.mem_toArray.1 hj)
    obtain ⟨row, hrow, he⟩ := List.mem_flatten.1 he
    exact hcols row hrow e he
  ascending := by
    intro i hi
    have hi' : i < entries.length := hi
    rw [rowIndexes_ofEntries hi', List.toList_toArray]
    exact hascend _ (List.getElem_mem hi')

/-! ## Columns -/

theorem length_rowEntries_column (i j : Nat) (ixs : List Nat) (vals : List α) (h : ixs.length = vals.length) :
    ((ixs.zip vals).filterMap fun (c, v) => if c = j then some (i, v) else none).length = ixs.count j := by
  induction ixs generalizing vals with
  | nil => rfl
  | cons c ixs ih =>
    obtain _ | ⟨v, vals⟩ := vals
    · simp at h
    · have hrest := ih vals (by simpa using h)
      by_cases hc : c = j
      · simp [hc, hrest]
      · simp [hc, hrest]

theorem mem_columnEntries {i j : Nat} {v : α} :
    (i, v) ∈ s.columnEntries j ↔ i < s.rows ∧ (j, v) ∈ s.rowEntries i := by
  simp only [columnEntries_eq, List.mem_flatMap, List.mem_range, List.mem_filterMap, Option.ite_none_right_eq_some,
    Option.some.injEq, Prod.mk.injEq]
  constructor
  · rintro ⟨r, hr, ⟨c, w⟩, hmem, rfl, rfl, rfl⟩
    exact ⟨hr, hmem⟩
  · rintro ⟨hi, hmem⟩
    exact ⟨i, hi, (j, v), hmem, rfl, rfl, rfl⟩

/-- the entries of a column are as many as its indexes from the first start on -/
theorem LaidOut.length_columnEntries (h : s.LaidOut) (j : Nat) :
    (s.columnEntries j).length = (s.indexes.extract (s.pos 0) s.indexes.size).toList.count j := by
  rw [h.partsAgree, ← h.last, ← h.flatMap_rowIndexes le_rfl, List.count_flatMap, columnEntries_eq, List.length_flatMap]
  congr 1
  refine List.map_congr_left fun i _ => ?_
  exact length_rowEntries_column i j _ _ (by simpa using h.size_row i)

/-- a column has room for its entries -/
theorem LaidOut.length_columnEntries_le (h : s.LaidOut) (j : Nat) :
    (s.columnEntries j).length ≤ s.indexes.count j := by
  rw [h.length_columnEntries, ← Array.count_toList, Array.toList_extract, List.extract_eq_take_drop]
  exact ((List.take_sublist _ _).trans (List.drop_sublist _ _)).count_le j

/-- the entries of a column are as many as its indexes, if rows own all entries -/
theorem LaidOut.length_columnEntries_of_owned (h : s.LaidOut) (hfirst : s.pos 0 = 0) (j : Nat) :
    (s.columnEntries j).length = s.indexes.count j := by
  rw [h.length_columnEntries, hfirst, Array.extract_size, Array.count_toList]

theorem LaidOut.entries_column_lt (h : s.LaidOut) : ∀ e ∈ s.entries, e.2.1 < s.cols := by
  intro e he
  obtain ⟨i, -, he⟩ := List.mem_flatMap.1 he
  obtain ⟨⟨j, v⟩, hv, rfl⟩ := List.mem_map.1 he
  exact h.column_lt (h.mem_rowIndexes_iff.2 ⟨v, hv⟩)

/-- the rows of the entries of a column ascend: a row has a column once at most -/
theorem LaidOut.pairwise_columnEntries (h : s.LaidOut) (j : Nat) :
    ((s.columnEntries j).map (·.1)).Pairwise (· < ·) := by
  have hrow : ∀ i e, e ∈ ((s.rowEntries i).filterMap fun (c, v) => if c = j then some (i, v) else none) → e.1 = i := by
    intro i e he
    obtain ⟨⟨c, v⟩, -, hsome⟩ := List.mem_filterMap.1 he
    obtain ⟨-, hpair⟩ := Option.ite_none_right_eq_some.1 hsome
    rw [← Option.some.inj hpair]
  rw [List.pairwise_map, columnEntries_eq, List.pairwise_flatMap]
  constructor
  · intro i hi
    have hascend := h.ascending i (List.mem_range.1 hi)
    have hone : (s.rowIndexes i).toList.count j ≤ 1 := List.nodup_iff_count_le_one.1 (hascend.imp Nat.ne_of_lt) j
    rw [← length_rowEntries_column i j _ (s.rowValues i).toList (by simpa using h.size_row i)] at hone
    change (List.filterMap _ (s.rowEntries i)).length ≤ 1 at hone
    generalize (s.rowEntries i).filterMap _ = own at hone ⊢
    obtain _ | ⟨e, _ | ⟨e', own⟩⟩ := own
    · exact .nil
    · exact List.pairwise_singleton _ e
    · simp at hone
  · refine List.pairwise_lt_range.imp fun {i i'} hlt e he e' he' => ?_
    rwa [hrow i e he, hrow i' e' he']

/-! ## Transposing -/

variable [Cell α]

/-- a block that is laid out soundly has all its entries in the buffer -/
theorem LaidOut.toDense?_eq (h : s.LaidOut) : s.toDense? = some s.toDense := by
  refine if_pos ?_
  simp only [inBuffer, List.all_eq_true, List.mem_range, decide_eq_true_eq]
  intro i hi e he
  exact rowMajor_lt hi (h.column_lt (h.mem_rowIndexes_iff.2 ⟨e.2, he⟩))

/-- where the first start is zero, transposing lists the entries of each column and nothing else -/
theorem LaidOut.columnSlots_of_owned (h : s.LaidOut) (hfirst : s.pos 0 = 0) (j : Nat) :
    s.columnSlots j = s.columnEntries j := by
  rw [columnSlots, filled, h.length_columnEntries_of_owned hfirst, Nat.sub_self, List.replicate_zero, List.append_nil]

/-- **Transposing sorts the entries by column**, each column in the order of the rows. -/
theorem LaidOut.transpose_eq_slots (h : s.LaidOut) :
    s.transpose = ofEntries s.rows ((List.range s.cols).map s.columnSlots) :=
  transpose_eq_columnSlots h.columns h.partsAgree h.entries_column_lt fun j _ => h.length_columnEntries_le j

theorem LaidOut.transpose_eq (h : s.LaidOut) (hfirst : s.pos 0 = 0) :
    s.transpose = ofEntries s.rows ((List.range s.cols).map s.columnEntries) := by
  rw [h.transpose_eq_slots, funext (h.columnSlots_of_owned hfirst)]

theorem LaidOut.laidOut_transpose (h : s.LaidOut) (hfirst : s.pos 0 = 0) : s.transpose.LaidOut := by
  rw [h.transpose_eq hfirst]
  refine laidOut_ofEntries ?_ ?_
  · intro row hrow
    obtain ⟨j, -, rfl⟩ := List.mem_map.1 hrow
    exact h.pairwise_columnEntries j
  · rintro row hrow ⟨i, v⟩ he
    obtain ⟨j, -, rfl⟩ := List.mem_map.1 hrow
    exact (mem_columnEntries.1 he).1

theorem rows_transpose (s : Sparse α) : s.transpose.rows = s.cols := rfl

theorem LaidOut.mem_rowEntries_transpose (h : s.LaidOut) (hfirst : s.pos 0 = 0) {i j : Nat} {v : α} (hj : j < s.cols) :
    (i, v) ∈ s.transpose.rowEntries j ↔ i < s.rows ∧ (j, v) ∈ s.rowEntries i := by
  have hj' : j < ((List.range s.cols).map s.columnEntries).length := by simpa using hj
  rw [h.transpose_eq hfirst, rowEntries_ofEntries hj', List.getElem_map, List.getElem_range, mem_columnEntries]

/-- **The transposed block has cell `(j, i)` where the block has cell `(i, j)`**, if rows own all entries. -/
theorem LaidOut.get?_transpose (h : s.LaidOut) (hfirst : s.pos 0 = 0) {i j : Nat} (hi : i < s.rows) (hj : j < s.cols) :
    s.transpose.get? j i = s.get? i j := by
  have hturned := h.laidOut_transpose hfirst
  have hj' : j < s.transpose.rows := s.rows_transpose ▸ hj
  by_cases hentry : ∃ v, (j, v) ∈ s.rowEntries i
  · obtain ⟨v, hv⟩ := hentry
    rw [h.get?_of_entry hi hv, hturned.get?_of_entry hj' ((h.mem_rowEntries_transpose hfirst hj).2 ⟨hi, hv⟩)]
  · have hnot : i ∉ s.transpose.rowIndexes j := by
      intro hmem
      obtain ⟨v, hv⟩ := hturned.mem_rowIndexes_iff.1 hmem
      exact hentry ⟨v, ((h.mem_rowEntries_transpose hfirst hj).1 hv).2⟩
    rw [h.get?_of_no_entry hi (mt h.mem_rowIndexes_iff.1 hentry), hturned.get?_of_no_entry hj' hnot]

/-- transposing commutes with decoding, if rows own all entries -/
theorem LaidOut.toDense_transpose (h : s.LaidOut) (hfirst : s.pos 0 = 0) :
    s.transpose.toDense.values = s.toDense.transpose.values := by
  have hturned := h.laidOut_transpose hfirst
  refine Dense.Sized.values_ext s.sized_toDense.transpose s.transpose.sized_toDense s.rows_transpose rfl ?_
  intro j hj i hi
  have hj' : j < s.cols := hj
  have hi' : i < s.rows := hi
  rw [hturned.cell_toDense (s.rows_transpose ▸ hj') hi', Dense.get?_transpose s.sized_toDense hj' hi',
    h.cell_toDense hi' hj', cell, cell, h.get?_transpose hfirst hi' hj']

/-! ## Accepted layouts -/

omit [Cell α] in
theorem ofParts_ok {rows cols : Nat} {starts indexes : Array Nat} {values : Array α}
    (h : ofParts rows cols starts indexes values = .ok s) : s = ⟨rows, cols, starts, indexes, values⟩ ∧ s.LaidOut := by
  unfold ofParts at h
  split at h
  · cases h
  · rename_i hnone
    obtain rfl := Except.ok.inj h
    exact ⟨rfl, layoutFault?_eq_none_iff.1 hnone⟩

/-- **An accepted layout owns all its entries exactly if its first start is zero.** Then every entry belongs to exactly
one row and the sizes of rows add up to the number of entries, and then the transposed block has the mirrored cells,
read one by one or decoded. The checks accept any first start that the others allow, and the entries before it belong
to no row. -/
theorem ofParts_owned_iff {rows cols : Nat} {starts indexes : Array Nat} {values : Array α}
    (h : ofParts rows cols starts indexes values = .ok s) :
    ((total ((List.range s.rows).map s.size) = s.nnz ∧ ∀ k < s.nnz, ∃! i, i < s.rows ∧ s.Owns i k) ∧
      (∀ i < s.rows, ∀ j < s.cols, ∃ v, s.get? i j = some v ∧ s.transpose.get? j i = some v) ∧
      ∃ d t, s.toDense? = some d ∧ s.transpose.toDense? = some t ∧ t.values = d.transpose.values) ↔
    starts[0]? = some 0 := by
  obtain ⟨hparts, hlaid⟩ := ofParts_ok h
  have htotal := hlaid.total_size le_rfl
  have hlast : s.pos s.rows = s.nnz := hlaid.last
  have hfirst : starts[0]? = some 0 ↔ s.pos 0 = 0 := by
    have hstarts : s.starts = starts := by rw [hparts]
    have hlt : 0 < starts.size := by rw [← hstarts, hlaid.startCount]; omega
    rw [pos, hstarts, Array.getD_eq_getD_getElem?, Array.getElem?_eq_getElem hlt, Option.getD_some, Option.some.injEq]
  rw [hfirst]
  constructor
  · rintro ⟨⟨hall, -⟩, -⟩
    omega
  · intro hzero
    refine ⟨⟨by omega, fun k hk => ?_⟩, fun i hi j hj => ?_, ?_⟩
    · obtain ⟨i, hi, howns⟩ := exists_owner (s := s) (n := s.rows) (k := k) (by omega) (by omega)
      exact ⟨i, ⟨hi, howns⟩, fun i' h' => hlaid.owner_unique h'.1 hi h'.2 howns⟩
    · exact ⟨_, hlaid.get?_eq hi j, (hlaid.get?_transpose hzero hi hj).trans (hlaid.get?_eq hi j)⟩
    · exact ⟨_, _, hlaid.toDense?_eq, (hlaid.laidOut_transpose hzero).toDense?_eq, hlaid.toDense_transpose hzero⟩

/-- two rows with entries at the columns 0 and 2 and at the column 1: the second entry belongs to one row, and its cell
is mirrored -/
theorem three_entries_owned : ∃ s, ofParts 2 3 #[0, 2, 3] #[0, 2, 1] #[(5 : Int), 6, 7] = .ok s ∧
    (∃! i, i < s.rows ∧ s.Owns i 1) ∧ ∃ v, s.get? 0 2 = some v ∧ s.transpose.get? 2 0 = some v := by
  have hok : ofParts 2 3 #[0, 2, 3] #[0, 2, 1] #[(5 : Int), 6, 7] =
      .ok ⟨2, 3, #[0, 2, 3], #[0, 2, 1], #[5, 6, 7]⟩ := by decide
  obtain ⟨⟨-, hone⟩, hmirrored, -⟩ := (ofParts_owned_iff hok).2 rfl
  exact ⟨_, hok, hone 1 (by decide), hmirrored 0 (by decide) 2 (by decide)⟩

/-- an accepted layout whose first start is one: the entry 5 belongs to no row, and it hides the 7 of the second row in
the transposed block -/
theorem unowned_entry_hides_cell :
    ∃ s, ofParts 2 1 #[1, 1, 2] #[0, 0] #[(5 : Int), 7] = .ok s ∧
      total ((List.range s.rows).map s.size) = 1 ∧ s.nnz = 2 ∧
      s.get? 1 0 = some 7 ∧ s.transpose.get? 0 1 = some 0 :=
  ⟨⟨2, 1, #[1, 1, 2], #[0, 0], #[5, 7]⟩, by decide, by decide, by decide, by decide +kernel, by decide +kernel⟩

end Sparse

end MatrixEngine
