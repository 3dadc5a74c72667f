/-
The cells of dense blocks.

A block is sized if its buffer has a cell for every position and no others (`Dense.Sized`), and full if it has at least
these (`Dense.Full`). The transposed block of a sized block has cell `(j, i)` at `(i, j)` (`get?_transpose`), so that
transposing twice gives the block back (`transpose_transpose`).
-/
import MatrixEngine.Block.Dense
import MatrixEngine.Proofs.Number.Sums

namespace MatrixEngine

theorem rowMajor_lt {i j m n : Nat} (hi : i < m) (hj : j < n) : i * n + j < m * n :=
  calc i * n + j < i * n + n := Nat.add_lt_add_left hj _
    _ = (i + 1) * n := (Nat.succ_mul i n).symm
    _ ≤ m * n := Nat.mul_le_mul_right n hi

theorem rowMajor_mod {j n : Nat} (i : Nat) (hj : j < n) : (i * n + j) % n = j := by
  rw [Nat.mul_comm, Nat.mul_add_mod, Nat.mod_eq_of_lt hj]

theorem rowMajor_div {j n : Nat} (i : Nat) (hj : j < n) : (i * n + j) / n = i := by
  rw [Nat.mul_comm, Nat.mul_add_div (by omega), Nat.div_eq_of_lt hj, Nat.add_zero]

/-- writes that all agree with a function leave its values where something is written -/
theorem getElem?_foldl_set {α β : Type} {key : β → Nat} {val : β → α} {f : Nat → α} {entries : List β}
    (h : ∀ e ∈ entries, val e = f (key e)) {out : Array α} {j : Nat} (hj : j < out.size) :
    (entries.foldl (fun out e => out.setIfInBounds (key e) (val e)) out)[j]? =
      if j ∈ entries.map key then some (f j) else out[j]? := by
  induction entries generalizing out with
  | nil => simp
  | cons e entries ih =>
    have hj' : j < (out.setIfInBounds (key e) (val e)).size := by simpa using hj
    have hrest := ih (fun x hx => h x (List.mem_cons_of_mem e hx)) hj'
    rw [List.foldl_cons, hrest, List.map_cons]
    by_cases hmem : j ∈ entries.map key
    · rw [if_pos hmem, if_pos (List.mem_cons_of_mem _ hmem)]
    · rw [if_neg hmem, Array.getElem?_setIfInBounds]
      by_cases hkey : key e = j
      · subst hkey
        rw [if_pos rfl, if_pos hj, if_pos List.mem_cons_self, h e List.mem_cons_self]
      · rw [if_neg hkey, if_neg]
        rw [List.mem_cons]
        rintro (rfl | hrest)
        · exact hkey rfl
        · exact hmem hrest

theorem size_foldl_set {α β : Type} (key : β → Nat) (val : β → α) (entries : List β) (out : Array α) :
    (entries.foldl (fun out e => out.setIfInBounds (key e) (val e)) out).size = out.size := by
  induction entries generalizing out with
  | nil => rfl
  | cons e entries ih => rw [List.foldl_cons, ih, Array.size_setIfInBounds]

namespace Dense

open Cell

variable {α : Type}

/-- the buffer has a cell for every position, and no others -/
def Sized (d : Dense α) : Prop := d.values.size = d.rows * d.cols

/-- the buffer has a cell for every position, and maybe others behind them -/
def Full (d : Dense α) : Prop := d.rows * d.cols ≤ d.values.size

theorem Sized.full {d : Dense α} (h : d.Sized) : d.Full := h.ge

theorem Full.pos_lt {d : Dense α} (h : d.Full) {i j : Nat} (hi : i < d.rows) (hj : j < d.cols) :
    d.pos i + j < d.values.size :=
  (rowMajor_lt hi hj).trans_le h

theorem Full.row_end_le {d : Dense α} (h : d.Full) {i : Nat} (hi : i < d.rows) : d.pos i + d.cols ≤ d.values.size :=
  calc d.pos i + d.cols = (i + 1) * d.cols := (Nat.succ_mul i d.cols).symm
    _ ≤ d.rows * d.cols := Nat.mul_le_mul_right _ hi
    _ ≤ d.values.size := h

theorem Full.size_row {d : Dense α} (h : d.Full) {i : Nat} (hi : i < d.rows) : (d.row i).size = d.cols := by
  have hend := h.row_end_le hi
  rw [row, Array.size_extract]
  omega

theorem Sized.pos_lt {d : Dense α} (h : d.Sized) {i j : Nat} (hi : i < d.rows) (hj : j < d.cols) :
    d.pos i + j < d.values.size :=
  h.full.pos_lt hi hj

theorem Sized.size_row {d : Dense α} (h : d.Sized) {i : Nat} (hi : i < d.rows) : (d.row i).size = d.cols :=
  h.full.size_row hi

theorem getElem?_row {d : Dense α} {i j : Nat} (hj : j < d.cols) : (d.row i)[j]? = d.get? i j := by
  rw [row, get?, Array.getElem?_extract]
  split_ifs
  · rfl
  · rw [Array.getElem?_eq_none (by omega)]

variable [Cell α]

/-- cell `(i, j)`, zero outside of the buffer -/
def cell (d : Dense α) (i j : Nat) : α := (d.get? i j).getD zero

theorem Full.get?_eq {d : Dense α} (h : d.Full) {i j : Nat} (hi : i < d.rows) (hj : j < d.cols) :
    d.get? i j = some (d.cell i j) := by
  have hget : d.get? i j = some _ := Array.getElem?_eq_getElem (h.pos_lt hi hj)
  rw [cell, hget, Option.getD_some]

theorem Sized.get?_eq {d : Dense α} (h : d.Sized) {i j : Nat} (hi : i < d.rows) (hj : j < d.cols) :
    d.get? i j = some (d.cell i j) :=
  h.full.get?_eq hi hj

theorem Sized.toList_row {d : Dense α} (h : d.Sized) {i : Nat} (hi : i < d.rows) :
    (d.row i).toList = (List.range d.cols).map (d.cell i) := by
  refine List.ext_getElem? fun j => ?_
  rw [Array.getElem?_toList, List.getElem?_map]
  rcases Nat.lt_or_ge j d.cols with hj | hj
  · rw [getElem?_row hj, h.get?_eq hi hj, List.getElem?_range hj, Option.map_some]
  · rw [Array.getElem?_eq_none (by rw [h.size_row hi]; exact hj), List.getElem?_eq_none (by simpa using hj)]
    rfl

theorem sized_zeros (rows cols : Nat) : (zeros rows cols : Dense α).Sized := by simp [Sized, zeros]

@[simp] theorem cell_zeros (rows cols i j : Nat) : (zeros rows cols : Dense α).cell i j = zero := by
  simp only [cell, get?, pos, zeros, Cell.zeros, Array.getElem?_replicate]
  split_ifs <;> rfl

/-- the cells row by row, with their places in a transposed buffer -/
def turnedCells (d : Dense α) : List (Nat × α) :=
  (List.range d.rows).flatMap fun i => (d.row i).toList.zipIdx.map fun (v, j) => (j * d.rows + i, v)

theorem values_transpose (d : Dense α) :
    d.transpose.values = d.turnedCells.foldl (fun out e => out.setIfInBounds e.1 e.2) (Cell.zeros d.values.size) := by
  rw [turnedCells, List.foldl_flatMap]
  unfold transpose
  simp only
  congr 1
  funext out i
  rw [writeColumn, List.foldl_map]

theorem Sized.transpose {d : Dense α} (h : d.Sized) : d.transpose.Sized := by
  rw [Sized, values_transpose, size_foldl_set, size_zeros, h, Nat.mul_comm]
  rfl

/-- every cell is among them, at its mirrored place -/
theorem Sized.mem_turnedCells {d : Dense α} (h : d.Sized) {k : Nat} {v : α} :
    (k, v) ∈ d.turnedCells ↔ ∃ i < d.rows, ∃ j < d.cols, j * d.rows + i = k ∧ d.cell i j = v := by
  simp only [turnedCells, List.mem_flatMap, List.mem_range, List.mem_map, Prod.exists, Prod.mk.injEq,
    List.mem_zipIdx_iff_getElem?, Array.getElem?_toList]
  constructor
  · rintro ⟨i, hi, w, j, hw, hk, rfl⟩
    have hj : j < d.cols := h.size_row hi ▸ (Array.getElem?_eq_some_iff.1 hw).1
    rw [getElem?_row hj] at hw
    exact ⟨i, hi, j, hj, hk, by rw [cell, hw, Option.getD_some]⟩
  · rintro ⟨i, hi, j, hj, hk, rfl⟩
    exact ⟨i, hi, _, j, by rw [getElem?_row hj, h.get?_eq hi hj], hk, rfl⟩

theorem get?_transpose {d : Dense α} (h : d.Sized) {i j : Nat} (hi : i < d.cols) (hj : j < d.rows) :
    d.transpose.get? i j = d.get? j i := by
  have hagree : ∀ e ∈ d.turnedCells, e.2 = d.cell (e.1 % d.rows) (e.1 / d.rows) := by
    intro e he
    obtain ⟨r, hr, c, -, hk, hv⟩ := h.mem_turnedCells.1 he
    rw [← hk, rowMajor_mod c hr, rowMajor_div c hr, hv]
  have hlt : i * d.rows + j < (Cell.zeros d.values.size : Array α).size := by
    rw [size_zeros, h, Nat.mul_comm d.rows]
    exact rowMajor_lt hi hj
  have hmem : i * d.rows + j ∈ d.turnedCells.map (·.1) :=
    List.mem_map.2 ⟨(_, d.cell j i), h.mem_turnedCells.2 ⟨j, hj, i, hi, rfl, rfl⟩, rfl⟩
  have hpos : d.transpose.get? i j = d.transpose.values[i * d.rows + j]? := rfl
  rw [hpos, values_transpose, getElem?_foldl_set (f := fun k => d.cell (k % d.rows) (k / d.rows)) hagree hlt,
    if_pos hmem, rowMajor_mod i hj, rowMajor_div i hj, h.get?_eq hj hi]

omit [Cell α] in
theorem Sized.values_ext {a b : Dense α} (ha : a.Sized) (hb : b.Sized) (hrows : b.rows = a.rows)
    (hcols : b.cols = a.cols) (h : ∀ i < a.rows, ∀ j < a.cols, b.get? i j = a.get? i j) : b.values = a.values := by
  refine Array.ext_getElem? fun k => ?_
  rcases Nat.lt_or_ge k (a.rows * a.cols) with hk | hk
  · have hpos : 0 < a.cols := Nat.pos_of_ne_zero fun h0 => by simp [h0] at hk
    have hrow : k / a.cols < a.rows := Nat.div_lt_of_lt_mul (by rwa [Nat.mul_comm] at hk)
    have hcell := h _ hrow _ (Nat.mod_lt k hpos)
    rwa [get?, get?, pos, pos, hcols, Nat.mul_comm, Nat.div_add_mod] at hcell
  · rw [Array.getElem?_eq_none (ha.trans_le hk), Array.getElem?_eq_none]
    rw [hb, hrows, hcols]
    exact hk

theorem Sized.transpose_transpose {d : Dense α} (h : d.Sized) : d.transpose.transpose = d := by
  have hvalues : d.transpose.transpose.values = d.values := by
    refine h.values_ext h.transpose.transpose rfl rfl fun i hi j hj => ?_
    rw [get?_transpose h.transpose hi hj, get?_transpose h hj hi]
  obtain ⟨rows, cols, values, nnz⟩ := d
  rw [Dense.mk.injEq]
  exact ⟨rfl, rfl, hvalues, rfl⟩

omit [Cell α] in
/-- a sized block is its rows end to end -/
theorem Sized.foldl_row {d : Dense α} (h : d.Sized) :
    (List.range d.rows).foldl (fun out i => out ++ d.row i) #[] = d.values := by
  have hfront : ∀ n ≤ d.rows,
      (List.range n).foldl (fun out i => out ++ d.row i) #[] = d.values.extract 0 (n * d.cols) := by
    intro n hn
    induction n with
    | zero => simp
    | succ n ih =>
      rw [List.range_succ, List.foldl_append, ih (by omega), List.foldl_cons, List.foldl_nil, row, pos,
        Array.extract_append_extract, Nat.zero_min, ← Nat.succ_mul, Nat.max_eq_right]
      exact Nat.mul_le_mul_right _ (Nat.le_succ n)
  rw [hfront d.rows le_rfl, ← h, Array.extract_size]

/-! ## Cells that are not zero -/

/-- the cells that are not zero in front of a row, and in the rows from there on -/
theorem countNonZero_front (d : Dense α) {rl ru : Nat} (h : rl ≤ ru) :
    countNonZero (d.values.extract 0 (d.pos ru)) =
      countNonZero (d.values.extract 0 (d.pos rl)) + countNonZero (d.values.extract (d.pos rl) (d.pos ru)) := by
  have hle : d.pos rl ≤ d.pos ru := Nat.mul_le_mul_right _ h
  rw [countNonZero, countNonZero, countNonZero, ← Array.countP_append, Array.extract_append_extract, Nat.zero_min,
    Nat.max_eq_right hle]

theorem total_countNonZero_row (d : Dense α) (n : Nat) :
    total ((List.range n).map fun i => countNonZero (d.row i)) = countNonZero (d.values.extract 0 (d.pos n)) := by
  induction n with
  | zero => simp [pos, countNonZero]
  | succ n ih =>
    have hrow : d.values.extract (d.pos n) (d.pos (n + 1)) = d.row n := by rw [row, pos, pos, Nat.succ_mul]
    rw [total_map_range_succ, ih, d.countNonZero_front (Nat.le_succ n), hrow]

theorem Sized.total_countNonZero_row {d : Dense α} (h : d.Sized) :
    total ((List.range d.rows).map fun i => countNonZero (d.row i)) = countNonZero d.values := by
  rw [d.total_countNonZero_row, pos, ← h, Array.extract_size]

/-! ## Cells written one after the other -/

theorem set_eq (d : Dense α) (i j : Nat) (v : α) :
    (d.set i j v).rows = d.rows ∧ (d.set i j v).cols = d.cols ∧
      (d.set i j v).values = d.values.setIfInBounds (d.pos i + j) v := by
  obtain ⟨rows, cols, values, nnz⟩ := d
  unfold set pos
  simp only
  split_ifs with h
  · exact ⟨rfl, rfl, by simp [Array.setIfInBounds, h]⟩
  · exact ⟨rfl, rfl, by simp [Array.setIfInBounds, h]⟩

variable {β : Type} {row col : β → Nat} {val : β → α}

theorem foldl_set_eq (row col : β → Nat) (val : β → α) (entries : List β) (d : Dense α) :
    (entries.foldl (fun d e => d.set (row e) (col e) (val e)) d).rows = d.rows ∧
    (entries.foldl (fun d e => d.set (row e) (col e) (val e)) d).cols = d.cols ∧
    (entries.foldl (fun d e => d.set (row e) (col e) (val e)) d).values =
      entries.foldl (fun out e => out.setIfInBounds (row e * d.cols + col e) (val e)) d.values := by
  induction entries generalizing d with
  | nil => exact ⟨rfl, rfl, rfl⟩
  | cons e entries ih =>
    obtain ⟨hrows, hcols, hvalues⟩ := set_eq d (row e) (col e) (val e)
    obtain ⟨hrows', hcols', hvalues'⟩ := ih (d.set (row e) (col e) (val e))
    rw [List.foldl_cons, List.foldl_cons]
    refine ⟨hrows'.trans hrows, hcols'.trans hcols, ?_⟩
    rw [hvalues', hcols, hvalues]
    rfl

theorem Sized.foldl_set {d : Dense α} (h : d.Sized) (entries : List β) :
    (entries.foldl (fun d e => d.set (row e) (col e) (val e)) d).Sized := by
  obtain ⟨hrows, hcols, hvalues⟩ := foldl_set_eq row col val entries d
  rw [Sized, hrows, hcols, hvalues, size_foldl_set]
  exact h

/-- writes inside a block that all agree with a function of the position leave its values where something is written -/
theorem Sized.cell_foldl_set {d : Dense α} (h : d.Sized) {entries : List β} {f : Nat → Nat → α}
    (hcol : ∀ e ∈ entries, col e < d.cols) (hval : ∀ e ∈ entries, val e = f (row e) (col e)) {i j : Nat}
    (hi : i < d.rows) (hj : j < d.cols) :
    (entries.foldl (fun d e => d.set (row e) (col e) (val e)) d).cell i j =
      if (i, j) ∈ entries.map (fun e => (row e, col e)) then f i j else d.cell i j := by
  obtain ⟨-, hcols, hvalues⟩ := foldl_set_eq row col val entries d
  have hagree : ∀ e ∈ entries, val e = f ((row e * d.cols + col e) / d.cols) ((row e * d.cols + col e) % d.cols) := by
    intro e he
    rw [rowMajor_div _ (hcol e he), rowMajor_mod _ (hcol e he), hval e he]
  have hlt : i * d.cols + j < d.values.size := h.pos_lt hi hj
  have hplace : i * d.cols + j ∈ entries.map (fun e => row e * d.cols + col e) ↔
      (i, j) ∈ entries.map (fun e => (row e, col e)) := by
    simp only [List.mem_map, Prod.mk.injEq]
    constructor
    · rintro ⟨e, he, hk⟩
      refine ⟨e, he, ?_, ?_⟩
      · rw [← rowMajor_div (row e) (hcol e he), hk, rowMajor_div i hj]
      · rw [← rowMajor_mod (row e) (hcol e he), hk, rowMajor_mod i hj]
    · rintro ⟨e, he, rfl, rfl⟩
      exact ⟨e, he, rfl⟩
  rw [cell, get?, pos, hcols, hvalues,
    getElem?_foldl_set (f := fun k => f (k / d.cols) (k % d.cols)) hagree hlt]
  by_cases hmem : (i, j) ∈ entries.map (fun e => (row e, col e))
  · rw [if_pos (hplace.2 hmem), if_pos hmem, rowMajor_div i hj, rowMajor_mod i hj, Option.getD_some]
  · rw [if_neg (fun hk => hmem (hplace.1 hk)), if_neg hmem]
    rfl

end Dense

end MatrixEngine
