/-
Sparse blocks turned over: the counting sort of a transposition finds the layout that storing the transposed dense block
row by row finds.

Both lay out, column by column, the cells that are not zero with their rows ascending, and a list of entries with
ascending first components is told by its members (`eq_of_ascending`). So turning the sparse block over is turning the
dense block over (`transpose_ofDense`), and what is known of dense blocks holds of the sparse blocks that come from them
(`Turned.exists_dense`).
-/
import MatrixEngine.Proofs.Block.Conversion

namespace MatrixEngine

open Cell

variable {α : Type}

/-- entries with ascending first components are the same list if they have the same members -/
theorem eq_of_ascending {l l' : List (Nat × α)} (h : (l.map (·.1)).Pairwise (· < ·))
    (h' : (l'.map (·.1)).Pairwise (· < ·)) (hmem : ∀ e, e ∈ l ↔ e ∈ l') : l = l' := by
  have : Std.Irrefl fun a b : Nat × α => a.1 < b.1 := ⟨fun a => Nat.lt_irrefl a.1⟩
  have : Std.Antisymm fun a b : Nat × α => a.1 < b.1 := ⟨fun a b hab hba => absurd hba (Nat.lt_asymm hab)⟩
  exact (List.pairwise_map.1 h).eq_of_mem_iff (List.pairwise_map.1 h') hmem

variable [Cell α]

theorem Dense.Sized.cell_transpose {d : Dense α} (h : d.Sized) {i j : Nat} (hi : i < d.cols) (hj : j < d.rows) :
    d.transpose.cell i j = d.cell j i := by
  rw [cell, get?_transpose h hi hj, cell]

namespace Sparse

variable {d : Dense α}

/-- **A column of the sparse block** has the entries of the row of the transposed dense block. -/
theorem columnEntries_ofDense (h : d.Sized) {j : Nat} (hj : j < d.cols) :
    (ofDense d).columnEntries j = d.transpose.rowEntries j := by
  refine eq_of_ascending ((laidOut_ofDense h).pairwise_columnEntries j) (d.transpose.pairwise_rowEntries j) ?_
  intro e
  obtain ⟨i, v⟩ := e
  rw [mem_columnEntries, rows_ofDense, h.transpose.mem_rowEntries hj]
  refine and_congr_right fun hi => ?_
  have hi' : i < d.rows := hi
  rw [rowEntries_ofDense d hi', h.mem_rowEntries hi', h.cell_transpose hj hi']
  exact and_iff_right hj

/-- **Turning the sparse block over** is storing the transposed dense block. -/
theorem transpose_ofDense (h : d.Sized) : (ofDense d).transpose = ofDense d.transpose := by
  have hcolumns : (List.range d.cols).map (ofDense d).columnEntries = (List.range d.cols).map d.transpose.rowEntries :=
    List.map_congr_left fun j hj => columnEntries_ofDense h (List.mem_range.1 hj)
  calc (ofDense d).transpose
      = ofEntries (ofDense d).rows ((List.range d.cols).map (ofDense d).columnEntries) :=
        (laidOut_ofDense h).transpose_eq (pos_ofDense_zero d)
    _ = ofDense d.transpose := by rw [hcolumns, rows_ofDense]; rfl

theorem runningTotals_replicate_zero (start n : Nat) :
    runningTotals start (List.replicate n 0) = List.replicate (n + 1) start := by
  induction n with
  | zero => rfl
  | succ n ih => rw [List.replicate_succ, runningTotals, Nat.add_zero, ih, List.replicate_succ (n := n + 1)]

theorem empty_eq_ofDense (rows cols : Nat) : (empty rows cols : Sparse α) = ofDense (.zeros rows cols) := by
  have hnone : ∀ i < rows, (Dense.zeros rows cols : Dense α).rowEntries i = [] := by
    intro i hi
    exact (Dense.rowEntries_eq_nil_iff (Dense.sized_zeros rows cols) hi).2 fun j _ => by
      rw [Dense.cell_zeros, isZero_zero]
  have hrows : (List.range rows).map (Dense.zeros rows cols : Dense α).rowEntries = List.replicate rows [] := by
    refine List.eq_replicate_iff.2 ⟨by simp, ?_⟩
    intro row hrow
    obtain ⟨i, hi, rfl⟩ := List.mem_map.1 hrow
    exact hnone i (List.mem_range.1 hi)
  have hentries : (empty rows cols : Sparse α) = ofEntries cols (List.replicate rows []) := by
    simp [empty, ofEntries, runningTotals_replicate_zero, List.flatten_replicate_nil]
  rw [hentries, ← hrows]
  rfl

/-- the blocks made empty or of a dense block, and turned over any number of times since -/
inductive Turned : Sparse α → Prop where
  | empty (rows cols : Nat) : Turned (empty rows cols)
  | ofDense {d : Dense α} (h : d.Sized) : Turned (ofDense d)
  | transpose {s : Sparse α} (h : Turned s) : Turned s.transpose

theorem Turned.exists_dense {s : Sparse α} (h : s.Turned) : ∃ d : Dense α, d.Sized ∧ s = .ofDense d := by
  induction h with
  | empty rows cols => exact ⟨_, Dense.sized_zeros rows cols, empty_eq_ofDense rows cols⟩
  | ofDense h => exact ⟨_, h, rfl⟩
  | transpose _ ih =>
    obtain ⟨d, hd, rfl⟩ := ih
    exact ⟨_, hd.transpose, transpose_ofDense hd⟩

/-- **Transposing agrees with the dense blocks.** The sparse block of a dense block turns over into the sparse block of
the transposed dense block, part by part, so its layout passes every check, begins at zero and has ascending columns in
every row; and a block that was made empty or of a dense block, and turned over any number of times, is its own
transposed transposed block. -/
theorem turned_as_dense :
    (∀ d : Dense α, d.Sized → ∃ s, (ofDense d).transpose = s ∧ ofDense d.transpose = s ∧
      ofParts s.rows s.cols s.starts s.indexes s.values = .ok s ∧ s.starts[0]? = some 0 ∧
      ∀ i < s.rows, (s.rowIndexes i).toList.Pairwise (· < ·)) ∧
    ∀ s : Sparse α, s.Turned → s.transpose.transpose = s := by
  constructor
  · intro d hd
    have hlaid := laidOut_ofDense hd.transpose
    refine ⟨_, transpose_ofDense hd, rfl, hlaid.ofParts_eq, ?_, hlaid.ascending⟩
    rw [hlaid.getElem?_starts (Nat.zero_le _), pos_ofDense_zero]
  · intro s hs
    obtain ⟨d, hd, rfl⟩ := hs.exists_dense
    calc (ofDense d).transpose.transpose
        = (ofDense d.transpose).transpose := by rw [transpose_ofDense hd]
      _ = ofDense d.transpose.transpose := transpose_ofDense hd.transpose
      _ = ofDense d := by rw [hd.transpose_transpose]

/-- an empty row and an empty column: turned over, the empty column is an empty row -/
theorem corner_turned_over_and_back : ∃ s, (ofDense (⟨2, 3, #[0, 0, 0, 5, 0, 7], 2⟩ : Dense Int)).transpose = s ∧
    s.starts = #[0, 1, 1, 2] ∧ s.indexes = #[1, 1] ∧ s.starts[0]? = some 0 ∧ s.transpose.transpose = s := by
  have hsized : (⟨2, 3, #[0, 0, 0, 5, 0, 7], 2⟩ : Dense Int).Sized := rfl
  obtain ⟨hdense, hback⟩ := turned_as_dense (α := Int)
  obtain ⟨s, hs, -, -, hfirst, -⟩ := hdense _ hsized
  have hturned : s.Turned := hs ▸ .transpose (.ofDense hsized)
  exact ⟨s, hs, hs ▸ (by decide +kernel), hs ▸ (by decide +kernel), hfirst, hback s hturned⟩

end Sparse

end MatrixEngine
