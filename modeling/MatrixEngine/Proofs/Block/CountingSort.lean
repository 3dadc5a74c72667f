/-
Transposing a sparse block sorts its entries by column: count them, sum the counts up, and put each entry into the next
free slot of its column.

The slots are seen as one row per column: the entries of the column that have come so far, and zeros at row 0 in the
slots that are left (`filled`). Placing an entry fills one slot of one column (`Slots.Hold.place`), so that after all
entries each column has its own in the order of the rows.
- `toList_columnStarts`: the summed counts are the running totals of how often each column is met.
- `Slots.Hold.placeAll`: after any entries that the columns have room for, each column holds its own in their order.
- `transpose_eq_columnSlots`: the transposed block has the slots of the columns as its rows.
-/
import MatrixEngine.Block.Sparse
import MatrixEngine.Proofs.Block.SparseRows

namespace MatrixEngine

/-! ## Running totals -/

theorem length_runningTotals (start : Nat) (sizes : List Nat) :
    (runningTotals start sizes).length = sizes.length + 1 := by
  induction sizes generalizing start with
  | nil => rfl
  | cons n sizes ih => rw [runningTotals, List.length_cons, ih, List.length_cons]

theorem runningTotals_concat (start : Nat) (sizes : List Nat) (n : Nat) :
    runningTotals start (sizes ++ [n]) = runningTotals start sizes ++ [start + total sizes + n] := by
  induction sizes generalizing start with
  | nil => rfl
  | cons m sizes ih =>
    rw [List.cons_append, runningTotals, ih, runningTotals, List.cons_append, total_cons, Nat.add_assoc start m]

theorem total_count (l : List Nat) (n : Nat) : total ((List.range n).map l.count) = l.countP (· < n) := by
  induction n with
  | zero => simp
  | succ n ih =>
    rw [total_map_range_succ, ih]
    clear ih
    induction l with
    | nil => rfl
    | cons k l ih =>
      simp only [List.countP_cons, List.count_cons, decide_eq_true_eq, beq_iff_eq]
      split_ifs <;> omega

theorem set_flatten {β : Type} {parts : List (List β)} {j k : Nat} (hj : j < parts.length) (hk : k < parts[j].length)
    (b : β) :
    parts.flatten.set (total ((parts.take j).map List.length) + k) b = (parts.set j (parts[j].set k b)).flatten := by
  induction parts generalizing j with
  | nil => cases hj
  | cons part parts ih =>
    cases j with
    | zero =>
      have hk' : k < part.length := hk
      rw [List.take_zero, List.map_nil, total_nil, Nat.zero_add, List.flatten_cons, List.set_append_left _ _ hk']
      rfl
    | succ j =>
      have hj' : j < parts.length := Nat.lt_of_succ_lt_succ hj
      have hrest := ih hj' hk
      rw [List.take_succ_cons, List.map_cons, total_cons, Nat.add_assoc, List.flatten_cons,
        List.set_append_right _ _ (Nat.le_add_right _ _), Nat.add_sub_cancel_left, hrest]
      rfl

namespace Sparse

variable {α : Type}

/-! ## Counting -/

theorem getElem?_counted (columns : List Nat) (counts : Array Nat) (k : Nat) :
    (columns.foldl (fun counts j => counts.modify (j + 1) (· + 1)) counts)[k]? =
      counts[k]?.map (· + columns.countP (fun j => j + 1 == k)) := by
  induction columns generalizing counts with
  | nil => simp
  | cons j columns ih =>
    rw [List.foldl_cons, ih, Array.getElem?_modify, List.countP_cons]
    by_cases hj : j + 1 = k
    · simp only [hj, if_true, beq_self_eq_true, Option.map_map]
      congr 1
      funext n
      simp only [Function.comp_apply]
      omega
    · simp [hj]

/-- the counts: none in front, and then how often each column is met -/
theorem toList_columnCounts (s : Sparse α) :
    s.columnCounts.toList = 0 :: (List.range s.cols).map s.indexes.count := by
  refine List.ext_getElem? fun k => ?_
  unfold columnCounts
  rw [Array.getElem?_toList, ← Array.foldl_toList, getElem?_counted, Array.getElem?_replicate]
  cases k with
  | zero => simp
  | succ j =>
    rw [List.getElem?_cons_succ, List.getElem?_map]
    by_cases hj : j < s.cols
    · rw [if_pos (Nat.succ_lt_succ hj), List.getElem?_range hj, Option.map_some, Option.map_some, Nat.zero_add,
        ← Array.count_toList, List.count]
      simp
    · rw [if_neg (by omega), List.getElem?_eq_none (by simpa using hj)]
      rfl

/-- the counts after `n` steps of summing up: those in front are running totals, the others are as they were -/
theorem toList_summed {sizes : List Nat} {counts : Array Nat} (hcounts : counts.toList = 0 :: sizes) {n : Nat}
    (hn : n ≤ sizes.length) :
    ((List.range n).foldl (fun counts j =>
      let before := counts.getD j 0
      counts.modify (j + 1) (· + before)) counts).toList = runningTotals 0 (sizes.take n) ++ sizes.drop n := by
  induction n with
  | zero => rw [List.range_zero, List.foldl_nil, hcounts]; rfl
  | succ n ih =>
    rw [List.range_succ, List.foldl_append, List.foldl_cons, List.foldl_nil]
    generalize (List.range n).foldl _ counts = summed at ih ⊢
    have hsummed := ih (by omega)
    have hlength : (runningTotals 0 (sizes.take n)).length = n + 1 := by
      rw [length_runningTotals, List.length_take, Nat.min_eq_left (by omega)]
    have hbefore : summed.getD n 0 = total (sizes.take n) := by
      have hn' : n ≤ (sizes.take n).length := by rw [List.length_take, Nat.min_eq_left (by omega)]
      have hlast := getElem?_runningTotals 0 hn'
      rw [Array.getD_eq_getD_getElem?, ← Array.getElem?_toList, hsummed, List.getElem?_append_left (by omega), hlast,
        Option.getD_some, Nat.zero_add, List.take_take, Nat.min_self]
    rw [hbefore, Array.toList_modify, hsummed, List.modify_eq_take_drop, List.take_left' hlength,
      List.drop_left' hlength, List.drop_eq_getElem_cons hn, List.modifyHead_cons, List.take_succ_eq_append_getElem hn,
      runningTotals_concat, List.append_assoc, List.singleton_append, Nat.zero_add, Nat.add_comm (sizes[n])]

/-- **The starts of the columns** are the running totals of how often each column is met. -/
theorem toList_columnStarts (s : Sparse α) :
    s.columnStarts.toList = runningTotals 0 ((List.range s.cols).map s.indexes.count) := by
  have hall := toList_summed s.toList_columnCounts (n := s.cols) (by simp)
  rw [List.take_of_length_le (by simp), List.drop_of_length_le (by simp), List.append_nil] at hall
  exact hall

/-! ## Columns -/

/-- of entries `(row, column, value)`, those of column `j`, `(row, value)` -/
def ofColumn (j : Nat) (entries : List (Nat × Nat × α)) : List (Nat × α) :=
  entries.filterMap fun (i, c, v) => if c = j then some (i, v) else none

theorem ofColumn_append (j : Nat) (entries more : List (Nat × Nat × α)) :
    ofColumn j (entries ++ more) = ofColumn j entries ++ ofColumn j more := List.filterMap_append ..

theorem ofColumn_self (i j : Nat) (v : α) : ofColumn j [(i, j, v)] = [(i, v)] := by simp [ofColumn]

theorem ofColumn_ne {c j : Nat} (h : c ≠ j) (i : Nat) (v : α) : ofColumn j [(i, c, v)] = [] := by simp [ofColumn, h]

/-- all entries, `(row, column, value)`, row by row -/
def entries (s : Sparse α) : List (Nat × Nat × α) :=
  (List.range s.rows).flatMap fun i => (s.rowEntries i).map fun e => (i, e)

/-- the entries of column `j` in row order, `(row, value)` -/
def columnEntries (s : Sparse α) (j : Nat) : List (Nat × α) := ofColumn j s.entries

/-- the entries of a column, taken from one row after the other -/
theorem columnEntries_eq (s : Sparse α) (j : Nat) :
    s.columnEntries j = (List.range s.rows).flatMap fun i =>
      (s.rowEntries i).filterMap fun (c, v) => if c = j then some (i, v) else none := by
  rw [columnEntries, ofColumn, entries, List.filterMap_flatMap]
  refine List.flatMap_congr fun i _ => ?_
  rw [List.filterMap_map]
  rfl

variable [Cell α]

open Cell

/-- the slots of a column: its entries, and zeros at row 0 in the slots that are left -/
def filled (room : Nat) (own : List (Nat × α)) : List (Nat × α) := own ++ List.replicate (room - own.length) (0, zero)

theorem length_filled {room : Nat} {own : List (Nat × α)} (h : own.length ≤ room) :
    (filled room own).length = room := by
  rw [filled, List.length_append, List.length_replicate]
  omega

/-- the next entry of a column goes where its zeros begin -/
theorem set_filled {room : Nat} {own : List (Nat × α)} (h : own.length < room) (e : Nat × α) :
    (filled room own).set own.length e = filled room (own ++ [e]) := by
  obtain ⟨n, rfl⟩ : ∃ n, room = own.length + (n + 1) := ⟨room - own.length - 1, by omega⟩
  rw [filled, filled, List.set_append_right _ _ le_rfl, Nat.sub_self, Nat.add_sub_cancel_left, List.length_append,
    List.length_singleton, List.replicate_succ, List.set_cons_zero, List.append_assoc,
    show own.length + (n + 1) - (own.length + 1) = n by omega]
  rfl

/-- the slots of the columns, one column after the other -/
def slotsOf (cols : Nat) (room : Nat → Nat) (placed : List (Nat × Nat × α)) : List (List (Nat × α)) :=
  (List.range cols).map fun j => filled (room j) (ofColumn j placed)

end Sparse

/-! ## Placing -/

namespace Slots

open Cell Sparse

variable {α : Type} [Cell α] {slots : Slots α} {cols : Nat} {room : Nat → Nat} {placed : List (Nat × Nat × α)}

/-- the slots hold the entries that were placed: each column begins where the ones before it end, has room for its
entries, and goes on behind them -/
structure Hold (slots : Slots α) (cols : Nat) (room : Nat → Nat) (placed : List (Nat × Nat × α)) : Prop where
  fits : ∀ j < cols, (ofColumn j placed).length ≤ room j
  next : ∀ j < cols, slots.next[j]? = some (total ((List.range j).map room) + (ofColumn j placed).length)
  indexes : slots.indexes.toList = (slotsOf cols room placed).flatten.map (·.1)
  values : slots.values.toList = (slotsOf cols room placed).flatten.map (·.2)

theorem Hold.set_slotsOf (h : slots.Hold cols room placed) {j : Nat} (hj : j < cols)
    (hfree : (ofColumn j placed).length < room j) (i : Nat) (v : α) :
    (slotsOf cols room placed).flatten.set (total ((List.range j).map room) + (ofColumn j placed).length) (i, v) =
      (slotsOf cols room (placed ++ [(i, j, v)])).flatten := by
  have hj' : j < (slotsOf cols room placed).length := by simpa [slotsOf] using hj
  have hcolumn : (slotsOf cols room placed)[j] = filled (room j) (ofColumn j placed) := by simp [slotsOf]
  have hstart : ((slotsOf cols room placed).take j).map List.length = (List.range j).map room := by
    rw [slotsOf, ← List.map_take, List.take_range, Nat.min_eq_left hj.le, List.map_map]
    refine List.map_congr_left fun c hc => ?_
    exact length_filled (h.fits c ((List.mem_range.1 hc).trans hj))
  have hset := set_flatten hj' (k := (ofColumn j placed).length) (by rw [hcolumn, length_filled hfree.le]; exact hfree)
    (i, v)
  rw [hstart, hcolumn, set_filled hfree] at hset
  rw [hset]
  congr 1
  refine List.ext_getElem (by simp [slotsOf]) fun c hc _ => ?_
  rw [List.getElem_set]
  by_cases hjc : j = c
  · subst hjc
    simp [slotsOf, ofColumn_append, ofColumn_self]
  · simp [slotsOf, hjc, ofColumn_append, ofColumn_ne hjc]

/-- **Placing an entry** fills the next slot of its column and leaves the other columns alone. -/
theorem Hold.place (h : slots.Hold cols room placed) {i j : Nat} {v : α} (hj : j < cols)
    (hfree : (ofColumn j placed).length < room j) :
    (slots.place i (j, v)).Hold cols room (placed ++ [(i, j, v)]) := by
  have hk : slots.next.getD j 0 = total ((List.range j).map room) + (ofColumn j placed).length := by
    rw [Array.getD_eq_getD_getElem?, h.next j hj, Option.getD_some]
  have hplace : slots.place i (j, v) = ⟨slots.next.modify j (· + 1),
    slots.indexes.setIfInBounds (slots.next.getD j 0) i, slots.values.setIfInBounds (slots.next.getD j 0) v⟩ := rfl
  rw [hplace, hk]
  have hset := h.set_slotsOf hj hfree i v
  constructor
  case fits =>
    intro c hc
    rw [ofColumn_append, List.length_append]
    by_cases hjc : j = c
    · subst hjc
      rw [ofColumn_self]
      exact hfree
    · rw [ofColumn_ne hjc]
      exact h.fits c hc
  case next =>
    intro c hc
    simp only [Array.getElem?_modify, h.next c hc]
    rw [ofColumn_append, List.length_append]
    by_cases hjc : j = c
    · subst hjc
      rw [if_pos rfl, ofColumn_self]
      rfl
    · rw [if_neg hjc, ofColumn_ne hjc]
      rfl
  case indexes => rw [Array.toList_setIfInBounds, h.indexes, ← hset, List.map_set]
  case values => rw [Array.toList_setIfInBounds, h.values, ← hset, List.map_set]

/-- **Placing entries one after the other** leaves each column with its own in their order, if it has room for them. -/
theorem Hold.placeAll (h : slots.Hold cols room placed) {more : List (Nat × Nat × α)}
    (hcols : ∀ e ∈ more, e.2.1 < cols) (hroom : ∀ j < cols, (ofColumn j (placed ++ more)).length ≤ room j) :
    (more.foldl (fun slots e => slots.place e.1 e.2) slots).Hold cols room (placed ++ more) := by
  induction more generalizing slots placed with
  | nil => rwa [List.append_nil]
  | cons e more ih =>
    obtain ⟨i, j, v⟩ := e
    have hj : j < cols := hcols _ List.mem_cons_self
    have hsplit : placed ++ (i, j, v) :: more = placed ++ [(i, j, v)] ++ more := by simp
    have hfree : (ofColumn j placed).length < room j := by
      have hall := hroom j hj
      rw [hsplit, ofColumn_append, ofColumn_append, ofColumn_self, List.length_append, List.length_append,
        List.length_singleton] at hall
      omega
    rw [hsplit] at hroom ⊢
    exact ih (h.place hj hfree) (fun e he => hcols e (List.mem_cons_of_mem _ he)) hroom

/-- before any entry is placed every column has zeros only -/
theorem hold_vacant {starts : Array Nat} {size : Nat}
    (hstarts : starts.toList = runningTotals 0 ((List.range cols).map room)) (hsize : size = total ((List.range cols).map room)) : (vacant starts size : Slots α).Hold cols room [] := by
  have hzeros : (slotsOf cols room ([] : List (Nat × Nat × α))).flatten = List.replicate size (0, zero) := by
    have hcolumns : slotsOf cols room ([] : List (Nat × Nat × α)) =
        ((List.range cols).map room).map fun n => List.replicate n (0, zero) := by
      rw [List.map_map]
      exact List.map_congr_left fun j _ => rfl
    rw [hsize, hcolumns]
    generalize (List.range cols).map room = rooms
    induction rooms with
    | nil => rfl
    | cons n rooms ih => rw [List.map_cons, List.flatten_cons, ih, total_cons, List.replicate_append_replicate]
  constructor
  case fits => exact fun j _ => Nat.zero_le _
  case next =>
    intro j hj
    have hj' : j ≤ ((List.range cols).map room).length := by simpa using hj.le
    have hstart := getElem?_runningTotals 0 hj'
    rw [← hstarts, Array.getElem?_toList] at hstart
    rw [vacant, hstart, ← List.map_take, List.take_range, Nat.min_eq_left hj.le, Nat.zero_add]
    rfl
  case indexes => simp [vacant, hzeros]
  case values => simp [vacant, hzeros, zeros]

end Slots

/-! ## Transposing -/

namespace Sparse

open Cell

variable {α : Type} [Cell α] {s : Sparse α}

/-- the slots of column `j`: its entries, with a zero at row 0 for every index that no row owns -/
def columnSlots (s : Sparse α) (j : Nat) : List (Nat × α) := filled (s.indexes.count j) (s.columnEntries j)

/-- **The transposed block has the slots of the columns as its rows**, if every index is a column and the columns have
room for the entries of the rows. -/
theorem transpose_eq_columnSlots (hcolumns : ∀ j ∈ s.indexes, j < s.cols) (hparts : s.indexes.size = s.values.size)
    (hentries : ∀ e ∈ s.entries, e.2.1 < s.cols)
    (hroom : ∀ j < s.cols, (s.columnEntries j).length ≤ s.indexes.count j) :
    s.transpose = ofEntries s.rows ((List.range s.cols).map s.columnSlots) := by
  have hsize : s.values.size = total ((List.range s.cols).map s.indexes.count) := by
    have hall : s.indexes.toList.countP (· < s.cols) = s.indexes.toList.length :=
      List.countP_eq_length.2 fun j hj => decide_eq_true (hcolumns j (Array.mem_toList_iff.1 hj))
    rw [← hparts, ← Array.length_toList, ← hall, ← total_count]
    simp only [Array.count_toList]
  have hlengths : ((List.range s.cols).map s.columnSlots).map List.length =
      (List.range s.cols).map s.indexes.count := by
    rw [List.map_map]
    exact List.map_congr_left fun j hj => length_filled (hroom j (List.mem_range.1 hj))
  have hrun : (List.range s.rows).foldl (fun slots i =>
      (s.rowEntries i).foldl (fun slots entry => slots.place i entry) slots)
        (Slots.vacant s.columnStarts s.values.size) =
      s.entries.foldl (fun slots e => slots.place e.1 e.2) (Slots.vacant s.columnStarts s.values.size) := by
    rw [entries, List.foldl_flatMap]
    simp only [List.foldl_map]
  have hhold := (Slots.hold_vacant s.toList_columnStarts hsize).placeAll hentries hroom
  rw [List.nil_append] at hhold
  simp only [transpose, ofEntries, hrun, Sparse.mk.injEq, true_and]
  refine ⟨by simp, ?_, ?_, ?_⟩
  · rw [hlengths, ← toList_columnStarts, Array.toArray_toList]
  · rw [← Array.toList_inj, hhold.indexes]
    rfl
  · rw [← Array.toList_inj, hhold.values]
    rfl

end Sparse

end MatrixEngine
