/-
How the estimate of a matrix with few non-zero cells compares with that of a dense one.

A block is costed in the format it would be held in, and the format is chosen by density alone: several columns of which
fewer than two fifths of the cells are non-zero are held sparse (`Thin`). Over exact fractions the estimate of such a
block is the size of the sparse rows, which have headers and room for four entries, and that of any other block is the
dense size (`estimate_some`, `estimate_none`). So the estimate does not choose the smaller of both sizes.
- `sparseBytes_le`: with forty columns or more the sparse size of a thin block is at most the dense size.
- `denseBytes_lt`: with two to thirty-nine columns there are thin blocks of ten rows of which it is not.
- `estimate_beside_dense`: hence an estimate is at most the dense one whatever the rows and the non-zero cells are, exactly
  if there is at most one column or there are forty or more.
-/
import Mathlib.Algebra.Order.Floor.Div
import Mathlib.Tactic
import MatrixEngine.Plan.Size

namespace MatrixEngine

/-- exact fractions -/
instance : CostNumber ℚ where
  ofNat n := n
  less a b := decide (a < b)
  isZero a := decide (a = 0)
  larger := max
  smaller := min
  ceil a := ⌈a⌉
  toWord a := min ⌊a⌋₊ Numeral.maxWord64

namespace Cost

open Numeral (maxWord64)

variable {rows cols nnz : Nat}

/-- several columns, of which fewer than two fifths of the cells are non-zero -/
def Thin (rows cols nnz : Nat) : Prop := 1 < cols ∧ 5 * nnz < 2 * (rows * cols)

instance : Decidable (Thin rows cols nnz) := inferInstanceAs (Decidable (_ ∧ _))

def denseBytes (rows cols : Nat) : Nat := headerBytes + 8 * (rows * cols)

/-- the size of a sparse block: a header for each row, and for each row that has an entry a header of its own and room
for as many entries as rows have on average, rounded up, but for four at least -/
def sparseBytes (rows nnz : Nat) : Nat :=
  headerBytes + 8 * rows +
    min rows nnz * (sparseRowBytes + sparseEntryBytes * max (nnz ⌈/⌉ rows) sparseRowCapacity)

/-! ## The estimate in whole numbers -/

theorem toWord_natCast (n : Nat) : CostNumber.toWord (n : ℚ) = min n maxWord64 := by
  change min ⌊(n : ℚ)⌋₊ maxWord64 = _
  rw [Nat.floor_natCast]

theorem dense_eq (rows cols : Nat) : dense ℚ rows cols = min (denseBytes rows cols) maxWord64 := by
  rw [← toWord_natCast, dense]
  congr 1
  change ((headerBytes : Nat) : ℚ) + ((8 : Nat) : ℚ) * ((rows : ℚ) * (cols : ℚ)) = _
  rw [denseBytes]
  push_cast
  rfl

theorem heldSparse_iff (hcells : 0 < rows * cols) : heldSparse ℚ rows cols nnz = true ↔ Thin rows cols nnz := by
  have hcells' : (0 : ℚ) < (rows : ℚ) * cols := by exact_mod_cast hcells
  have hzero : CostNumber.isZero (cells rows cols : ℚ) = false := decide_eq_false hcells'.ne'
  have hless : CostNumber.less ((CostNumber.ofNat nnz : ℚ) / cells rows cols) turnPoint = true ↔
      5 * nnz < 2 * (rows * cols) := by
    change decide ((nnz : ℚ) / ((rows : ℚ) * cols) < ((2 : Nat) : ℚ) / ((5 : Nat) : ℚ)) = true ↔ _
    rw [decide_eq_true_eq, div_lt_div_iff₀ hcells' (by norm_num)]
    norm_cast
    rw [Nat.mul_comm nnz 5]
  rw [heldSparse]
  simp only [hzero, Bool.false_eq_true, if_false, Bool.and_eq_true, decide_eq_true_eq, hless, Thin]

theorem ceil_natCast_div (hrows : 0 < rows) : ⌈(nnz : ℚ) / rows⌉ = ((nnz ⌈/⌉ rows : Nat) : ℤ) := by
  rw [← Int.natCast_ceil_eq_ceil (by positivity), Nat.cast_inj]
  refine eq_of_forall_ge_iff fun bound => ?_
  rw [Nat.ceil_le, div_le_iff₀ (by exact_mod_cast hrows), ceilDiv_le_iff_le_mul hrows]
  norm_cast
  rw [Nat.mul_comm]

/-- **the size at the density that so many non-zero cells make**: the row capacity and the filled rows are whole
numbers, so nothing is lost between the density and the size. -/
theorem sparse_eq (hrows : 0 < rows) (hcols : 0 < cols) :
    sparse rows cols ((nnz : ℚ) / ((rows : ℚ) * cols)) = min (sparseBytes rows nnz) maxWord64 := by
  have hrows' : (rows : ℚ) ≠ 0 := by exact_mod_cast hrows.ne'
  have hcols' : (cols : ℚ) ≠ 0 := by exact_mod_cast hcols.ne'
  have hperRow : (nnz : ℚ) / ((rows : ℚ) * cols) * cols = nnz / rows := by field_simp
  have hall : (nnz : ℚ) / ((rows : ℚ) * cols) * rows * cols = nnz := by field_simp
  rw [← toWord_natCast, sparse]
  congr 1
  change ((headerBytes : Nat) : ℚ) + ((8 : Nat) : ℚ) * (rows : ℚ) +
      min (rows : ℚ) ((⌈(nnz : ℚ) / ((rows : ℚ) * cols) * rows * cols⌉ : ℤ) : ℚ) *
        (((sparseRowBytes : Nat) : ℚ) + ((sparseEntryBytes : Nat) : ℚ) *
          max ((⌈(nnz : ℚ) / ((rows : ℚ) * cols) * cols⌉ : ℤ) : ℚ) ((sparseRowCapacity : Nat) : ℚ)) = _
  rw [hperRow, hall, ceil_natCast_div hrows, Int.ceil_natCast, sparseBytes]
  push_cast
  rfl

theorem le_denseBytes (hle : nnz ≤ rows * cols) : nnz ≤ denseBytes rows cols := by
  unfold denseBytes
  omega

theorem le_sparseBytes (hrows : 0 < rows) : nnz ≤ sparseBytes rows nnz := by
  have hcover : nnz ≤ rows * (nnz ⌈/⌉ rows) := (ceilDiv_le_iff_le_mul hrows).mp le_rfl
  have hroom : nnz ≤ min rows nnz *
      (sparseRowBytes + sparseEntryBytes * max (nnz ⌈/⌉ rows) sparseRowCapacity) := by
    rcases Nat.le_total rows nnz with h | h
    · rw [Nat.min_eq_left h]
      refine hcover.trans (Nat.mul_le_mul_left rows ?_)
      unfold sparseRowBytes sparseEntryBytes
      omega
    · rw [Nat.min_eq_right h]
      refine Nat.le_mul_of_pos_right nnz ?_
      unfold sparseRowBytes
      omega
  unfold sparseBytes
  omega

theorem clampDensity_eq {density : ℚ} (hlow : 0 ≤ density) (hhigh : density ≤ 1) : clampDensity density = density := by
  have hnotLess : CostNumber.less density (CostNumber.ofNat 0) = false := by
    change decide (density < ((0 : Nat) : ℚ)) = false
    simpa using hlow
  have hnotMore : CostNumber.less (CostNumber.ofNat 1) density = false := by
    change decide (((1 : Nat) : ℚ) < density) = false
    simpa using hhigh
  simp only [clampDensity, hnotLess, hnotMore, Bool.false_eq_true, if_false]

/-- the bytes of the format that a block is held in -/
def heldBytes (rows cols nnz : Nat) : Nat :=
  if Thin rows cols nnz then sparseBytes rows nnz else denseBytes rows cols

/-- the format is decided on the number of entries cut to a word, which makes no difference: where the cut changes the
number, both sizes are beyond a word as well. -/
theorem heldBytes_cut (hrows : 0 < rows) (hle : nnz ≤ rows * cols) :
    min (if Thin rows cols (min nnz maxWord64) then sparseBytes rows nnz else denseBytes rows cols) maxWord64 =
      min (heldBytes rows cols nnz) maxWord64 := by
  rcases Nat.le_total nnz maxWord64 with hword | hword
  · rw [Nat.min_eq_left hword, heldBytes]
  · have hdense := hword.trans (le_denseBytes hle)
    have hsparse : maxWord64 ≤ sparseBytes rows nnz := hword.trans (le_sparseBytes hrows)
    rw [Nat.min_eq_right, Nat.min_eq_right]
    · unfold heldBytes
      split <;> assumption
    · split <;> assumption

theorem ofDensity_eq (hcells : 0 < rows * cols) (hle : nnz ≤ rows * cols) :
    ofDensity rows cols ((nnz : ℚ) / ((rows : ℚ) * cols)) = min (heldBytes rows cols nnz) maxWord64 := by
  have hrows : 0 < rows := Nat.pos_of_mul_pos_right hcells
  have hcols : 0 < cols := Nat.pos_of_mul_pos_left hcells
  have hcells' : (0 : ℚ) < (rows : ℚ) * cols := by exact_mod_cast hcells
  have hclamp : clampDensity ((nnz : ℚ) / ((rows : ℚ) * cols)) = (nnz : ℚ) / ((rows : ℚ) * cols) :=
    clampDensity_eq (by positivity) ((div_le_one hcells').mpr (by exact_mod_cast hle))
  have hentries : CostNumber.toWord (CostNumber.ceil ((nnz : ℚ) / ((rows : ℚ) * cols) *
      CostNumber.ofNat rows * CostNumber.ofNat cols)) = min nnz maxWord64 := by
    have hall : (nnz : ℚ) / ((rows : ℚ) * cols) * rows * cols = nnz := by field_simp
    change CostNumber.toWord ((⌈(nnz : ℚ) / ((rows : ℚ) * cols) * rows * cols⌉ : ℤ) : ℚ) = _
    rw [hall, Int.ceil_natCast, Int.cast_natCast, toWord_natCast]
  rw [ofDensity, hclamp]
  simp only [hentries, heldSparse_iff hcells, sparse_eq hrows hcols, dense_eq]
  rw [← heldBytes_cut hrows hle]
  split <;> rfl

/-- **the estimate in whole numbers**: the bytes of the format that the block is held in, cut to a word. -/
theorem estimate_some (hsome : 0 < nnz) (hle : nnz ≤ rows * cols) :
    estimate ℚ rows cols (some nnz) = min (heldBytes rows cols nnz) maxWord64 := by
  have hcells : 0 < rows * cols := hsome.trans_le hle
  have hpos : CostNumber.less (CostNumber.ofNat 0) (cells rows cols : ℚ) = true := by
    change decide (((0 : Nat) : ℚ) < (rows : ℚ) * cols) = true
    rw [decide_eq_true_eq]
    exact_mod_cast hcells
  rw [estimate]
  simp only [hsome, hpos, and_self, if_true]
  exact ofDensity_eq hcells hle

/-- nothing known of the non-zero cells is all of them non-zero -/
theorem estimate_none (rows cols : Nat) : estimate ℚ rows cols none = dense ℚ rows cols := by
  rcases Nat.eq_zero_or_pos (rows * cols) with hempty | hcells
  · have hzero : CostNumber.isZero (cells rows cols : ℚ) = true := by
      change decide ((rows : ℚ) * cols = 0) = true
      rw [decide_eq_true_eq]
      exact_mod_cast hempty
    simp only [estimate, ofDensity, heldSparse, hzero, if_true, Bool.false_eq_true, if_false]
  · have hone : (CostNumber.ofNat 1 : ℚ) = ((rows * cols : Nat) : ℚ) / ((rows : ℚ) * cols) := by
      have hcells' : (rows : ℚ) * cols ≠ 0 := by exact_mod_cast hcells.ne'
      rw [Nat.cast_mul, div_self hcells']
      exact Nat.cast_one
    have hfull : ¬ Thin rows cols (rows * cols) := by
      rintro ⟨-, hfew⟩
      omega
    simp only [estimate]
    rw [hone, ofDensity_eq hcells le_rfl, heldBytes, if_neg hfull, dense_eq]

/-! ## The two sizes of a thin block -/

/-- **from forty columns on the sparse rows pay off**: a thin row then has room for less than two fifths of the
columns, rounded up, at twelve bytes each. -/
theorem sparseBytes_le (hcols : 40 ≤ cols) (hthin : Thin rows cols nnz) : sparseBytes rows nnz ≤ denseBytes rows cols := by
  have hrows : 0 < rows := by
    refine Nat.pos_of_ne_zero fun hzero => ?_
    have := hthin.2
    rw [hzero, Nat.zero_mul] at this
    omega
  have hroom : 5 * (nnz ⌈/⌉ rows) ≤ 2 * cols + 4 := by
    have hfive : nnz ⌈/⌉ rows ≤ (2 * cols + 4) / 5 := by
      rw [ceilDiv_le_iff_le_mul hrows]
      have hround : 2 * cols ≤ 5 * ((2 * cols + 4) / 5) := by omega
      have := Nat.mul_le_mul_left rows hround
      have hfew := hthin.2
      rw [Nat.mul_left_comm rows 2, Nat.mul_left_comm rows 5] at this
      omega
    omega
  have hrow : 8 + (sparseRowBytes + sparseEntryBytes * max (nnz ⌈/⌉ rows) sparseRowCapacity) ≤ 8 * cols := by
    unfold sparseRowBytes sparseEntryBytes sparseRowCapacity
    -- the two bounds meet at seventeen entries, where it counts that they are whole numbers
    rcases Nat.lt_or_ge (nnz ⌈/⌉ rows) 17 with h | h
    · omega
    · rcases Nat.lt_or_ge (nnz ⌈/⌉ rows) 18 with h' | h' <;> omega
  have hall := Nat.mul_le_mul_left rows hrow
  have hfilled := Nat.mul_le_mul_right
    (sparseRowBytes + sparseEntryBytes * max (nnz ⌈/⌉ rows) sparseRowCapacity) (Nat.min_le_left rows nnz)
  rw [Nat.mul_add, Nat.mul_left_comm, Nat.mul_comm rows 8] at hall
  unfold sparseBytes denseBytes
  omega

/-- **below forty columns they may not**: ten rows that are as full as thin rows can be. -/
theorem denseBytes_lt (hlow : 2 ≤ cols) (hhigh : cols < 40) :
    Thin 10 cols (4 * cols - 1) ∧ denseBytes 10 cols < sparseBytes 10 (4 * cols - 1) := by
  refine ⟨⟨by omega, by omega⟩, ?_⟩
  unfold denseBytes sparseBytes headerBytes sparseRowBytes sparseEntryBytes sparseRowCapacity
  rw [Nat.ceilDiv_eq_add_pred_div]
  interval_cases cols <;> decide

/-! ## The estimate beside the dense one -/

theorem heldBytes_le (hcols : cols ≤ 1 ∨ 40 ≤ cols) : heldBytes rows cols nnz ≤ denseBytes rows cols := by
  unfold heldBytes
  split
  · rename_i hthin
    rcases hcols with hfew | hmany
    · exact absurd hthin.1 (by omega)
    · exact sparseBytes_le hmany hthin
  · exact le_rfl

theorem estimate_le_iff (hsome : 0 < nnz) (hle : nnz ≤ rows * cols) :
    estimate ℚ rows cols (some nnz) ≤ dense ℚ rows cols ↔
      (Thin rows cols nnz → sparseBytes rows nnz ≤ denseBytes rows cols ∨ maxWord64 ≤ denseBytes rows cols) := by
  rw [estimate_some hsome hle, dense_eq, heldBytes]
  split
  · rename_i hthin
    simp only [hthin, true_imp_iff]
    omega
  · rename_i hthick
    simp only [hthick, false_imp_iff, le_refl]

/-- **an estimate beside the dense one, over exact fractions**:
- when nothing is known of the non-zero cells the estimate is the dense one;
- when their number is known it is the size of the format that the block is held in, which its density alone decides, and
  it is at most the dense one exactly if the block is not thin, or is thin and its sparse rows take no more bytes than all
  of its cells, or both take more than a word can say;
- so it is at most the dense one whatever the rows and the non-zero cells, exactly if there are not two to thirty-nine
  columns. -/
theorem estimate_beside_dense :
    (∀ rows cols, estimate ℚ rows cols none = dense ℚ rows cols) ∧
      (∀ rows cols nnz, 0 < nnz → nnz ≤ rows * cols →
        estimate ℚ rows cols (some nnz) =
            min (if Thin rows cols nnz then sparseBytes rows nnz else denseBytes rows cols) maxWord64 ∧
          (estimate ℚ rows cols (some nnz) ≤ dense ℚ rows cols ↔
            (Thin rows cols nnz →
              sparseBytes rows nnz ≤ denseBytes rows cols ∨ maxWord64 ≤ denseBytes rows cols))) ∧
      ∀ cols, (∀ rows nnz, 0 < nnz → nnz ≤ rows * cols →
          estimate ℚ rows cols (some nnz) ≤ dense ℚ rows cols) ↔ cols ≤ 1 ∨ 40 ≤ cols := by
  refine ⟨estimate_none, fun rows cols nnz hsome hle => ⟨estimate_some hsome hle, estimate_le_iff hsome hle⟩,
    fun cols => ⟨fun hall => ?_, fun hcols rows nnz hsome hle => ?_⟩⟩
  · by_contra hmiddle
    have hlow : 2 ≤ cols := by omega
    have hhigh : cols < 40 := by omega
    obtain ⟨hthin, hlarger⟩ := denseBytes_lt hlow hhigh
    have hword : denseBytes 10 cols < maxWord64 := by
      unfold denseBytes headerBytes Numeral.maxWord64
      omega
    have hsome : 0 < 4 * cols - 1 := by omega
    have hle : 4 * cols - 1 ≤ 10 * cols := by omega
    rcases (estimate_le_iff hsome hle).mp (hall 10 _ hsome hle) hthin with h | h <;> omega
  · rw [estimate_some hsome hle, dense_eq]
    exact min_le_min_right maxWord64 (heldBytes_le hcols)

/-- a thousand rows of a thousand columns with a thousand non-zero cells are estimated below the dense size -/
theorem estimate_beside_dense_wide :
    estimate ℚ 1000 1000 (some 1000) = 172060 ∧ estimate ℚ 1000 1000 (some 1000) ≤ dense ℚ 1000 1000 := by
  have hestimate := estimate_beside_dense.2.1 1000 1000 1000 (by decide) (by decide)
  exact ⟨hestimate.1.trans (by decide), (estimate_beside_dense.2.2 1000).mpr (by decide) 1000 1000 (by decide) (by decide)⟩

/-- a row of three columns with one non-zero cell is held sparse, which is estimated at more than the dense size -/
theorem dense_lt_estimate_narrow : ¬ ∀ rows cols nnz, 0 < nnz → nnz ≤ rows * cols →
    estimate ℚ rows cols (some nnz) ≤ dense ℚ rows cols := by
  intro hall
  have hle := hall 1 3 1 (by decide) (by decide)
  rw [estimate_some (by decide) (by decide), dense_eq] at hle
  revert hle
  decide

end Cost

end MatrixEngine
