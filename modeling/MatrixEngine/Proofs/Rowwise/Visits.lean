/-
The visits of a range, row by row.

What a kernel meets for row `i` of a block depends on the block and on `i` alone (`Block.visit`). Dense and sparse
blocks are indexed by the row; a compressed block is walked by a cursor that decodes a batch of rows at a time and is
paired with a row counter of its own, and an empty compressed block hands out rows without entries.
- `Block.visits_eq`: the visits of a range are the rows of the range in order, in every representation.
-/
import Mathlib.Tactic
import MatrixEngine.Proofs.Block.RowCursor
import MatrixEngine.Proofs.Rowwise.Ranges
import MatrixEngine.Rowwise.Kernel

namespace MatrixEngine

/-- numbering rows that follow one another pairs each with its own number -/
theorem Visit.numbered_map {α : Type} (start n : Nat) (row : Nat → Array α) :
    numbered start ((List.range' start n).map row) = (List.range' start n).map fun i => ⟨i, .dense (row i)⟩ := by
  induction n generalizing start with
  | zero => rfl
  | succ n ih =>
    have h := ih (start + 1)
    unfold numbered at h ⊢
    rw [List.range'_succ]
    simp only [List.map_cons, List.zipIdx_cons, h]

variable {α : Type} [Cell α]

/-! ## Rows of a block -/

namespace Block

/-- what a kernel meets for row `i` -/
def visit (b : Block α) (i : Nat) : Visit α :=
  match b with
  | dense d => .ofDense d i
  | sparse s => .ofSparse s i
  | compressed c => if c.isEmpty then .vacant i else ⟨i, .dense (c.row i)⟩

@[simp] theorem visit_row (b : Block α) (i : Nat) : (b.visit i).row = i := by
  cases b with
  | dense d => rfl
  | sparse s => simp only [visit, Visit.ofSparse]; split_ifs <;> rfl
  | compressed c => simp only [visit]; split_ifs <;> rfl

/-- **The visits of a range are its rows in order**, in every representation. -/
theorem visits_eq (b : Block α) (r : RowRange) (h : r.stop ≤ b.rows) : b.visits r = r.rows.map b.visit := by
  cases b with
  | dense d => rfl
  | sparse s => rfl
  | compressed c =>
    unfold visits visit
    by_cases hc : c.isEmpty
    · simp only [hc, if_true]
    · have hstop : min r.stop c.rows = r.stop := min_eq_left h
      simp only [hc, Bool.false_eq_true, if_false]
      rw [RowCursor.drain_ofRange, hstop, Visit.numbered_map]
      rfl

theorem visits_all (b : Block α) : b.visits ⟨0, b.rows⟩ = (List.range b.rows).map b.visit := by
  rw [visits_eq b ⟨0, b.rows⟩ le_rfl, RowRange.rows, RowRange.size, Nat.sub_zero, List.range_eq_range']

theorem visit_mem {b : Block α} {r : RowRange} (hr : r.stop ≤ b.rows) {i : Nat} (hi : i ∈ r.rows) :
    b.visit i ∈ b.visits ⟨0, b.rows⟩ := by
  rw [visits_all]
  refine List.mem_map_of_mem (List.mem_range.2 ?_)
  obtain ⟨h1, h2⟩ := List.mem_range'_1.1 hi
  unfold RowRange.size at h2
  omega

theorem visits_subset {b : Block α} {r : RowRange} (hr : r.stop ≤ b.rows) : b.visits r ⊆ b.visits ⟨0, b.rows⟩ := by
  intro v hv
  rw [visits_eq b r hr] at hv
  obtain ⟨i, hi, rfl⟩ := List.mem_map.1 hv
  exact visit_mem hr hi

/-- the visits of tiling ranges are the visits of the block -/
theorem visits_tiles {b : Block α} {ranges : List RowRange} (h : Partition.Tiles 0 b.rows ranges) :
    (ranges.map b.visits).flatten = b.visits ⟨0, b.rows⟩ := by
  have hcongr : ranges.map b.visits = ranges.map fun r => r.rows.map b.visit :=
    List.map_congr_left fun r hr => visits_eq b r (h.stop_le r hr)
  rw [hcongr, h.map_rows, visits_eq b ⟨0, b.rows⟩ le_rfl]

end Block

def threeRows : Block Int := .dense ⟨3, 2, #[1, 2, 3, 4, 5, 6], 6⟩

end MatrixEngine
