/-
Planned row ranges.

Sizes are planned in three ways: equal sizes, sizes that are multiples of an alignment, and sizes by weight. None of them
plans an empty range, so a plan has as many ranges as sizes.
- `length_balancedSizes`, `mem_balancedSizes`: equal sizes differ by at most one.
- `length_alignedSizes_le`, `dvd_start_of_aligned`: aligned ranges begin at multiples of the alignment, and there is at
  most one for each task.
- `chunkCount?_cases`: a small block gets a chunk for each task, a large one the same number of chunks for each task.
- `plan_ranges`: all of this for the ranges planned for a block.
-/
import MatrixEngine.Proofs.Number.Sums
import MatrixEngine.Proofs.Rowwise.ByWeight

namespace MatrixEngine.Partition

/-! ## Equal sizes -/

@[simp] theorem length_balancedSizes (len k : Nat) : (balancedSizes len k).length = min len (max k 1) := by
  simp [balancedSizes]

theorem mem_balancedSizes {len k n : Nat} (hn : n ∈ balancedSizes len k) :
    0 < n ∧ len / min len (max k 1) ≤ n ∧ n ≤ len / min len (max k 1) + 1 := by
  obtain ⟨i, hi, rfl⟩ := List.mem_map.1 hn
  have hlt := List.mem_range.1 hi
  have hquotient : 0 < len / min len (max k 1) := Nat.div_pos (Nat.min_le_left _ _) (by omega)
  split_ifs <;> omega

/-! ## Aligned sizes -/

/-- the length of all aligned chunks but the last -/
def alignedBlock (len k align : Nat) : Nat := ceilDiv (ceilDiv len (max k 1)) (max align 1) * max align 1

theorem alignedSizes_eq (len k align : Nat) : alignedSizes len k align =
    (List.range (ceilDiv len (alignedBlock len k align))).map fun i =>
      min (alignedBlock len k align) (len - i * alignedBlock len k align) := rfl

theorem lt_ceilDiv_iff {a b i : Nat} (hb : 0 < b) : i < ceilDiv a b ↔ i * b < a := by
  rw [ceilDiv, Nat.lt_iff_add_one_le, Nat.le_div_iff_mul_le hb, Nat.add_mul]
  omega

theorem ceilDiv_le_iff {a b n : Nat} (hb : 0 < b) : ceilDiv a b ≤ n ↔ a ≤ n * b := by
  rw [← Nat.not_lt, lt_ceilDiv_iff hb, Nat.not_lt]

@[simp] theorem ceilDiv_zero (b : Nat) : ceilDiv 0 b = 0 := by
  rw [ceilDiv, Nat.zero_add, Nat.div_eq_zero_iff]
  omega

@[simp] theorem alignedSizes_zero (k align : Nat) : alignedSizes 0 k align = [] := by
  rw [alignedSizes_eq, ceilDiv_zero, List.range_zero, List.map_nil]

theorem alignedBlock_pos {len : Nat} (hlen : 0 < len) (k align : Nat) : 0 < alignedBlock len k align :=
  Nat.mul_pos (ceilDiv_pos (ceilDiv_pos hlen (by omega)) (by omega)) (by omega)

/-- the chunks of all tasks together reach the last row -/
theorem le_mul_alignedBlock (len k align : Nat) : len ≤ max k 1 * alignedBlock len k align :=
  calc len ≤ ceilDiv len (max k 1) * max k 1 := le_ceilDiv_mul len (by omega)
    _ = max k 1 * ceilDiv len (max k 1) := Nat.mul_comm _ _
    _ ≤ max k 1 * alignedBlock len k align := Nat.mul_le_mul_left _ (le_ceilDiv_mul _ (by omega))

theorem length_alignedSizes_le (len k align : Nat) : (alignedSizes len k align).length ≤ max k 1 := by
  rcases Nat.eq_zero_or_pos len with rfl | hlen
  · simp
  · rw [alignedSizes_eq, List.length_map, List.length_range]
    exact (ceilDiv_le_iff (alignedBlock_pos hlen k align)).2 (le_mul_alignedBlock len k align)

theorem alignedSizes_pos (len k align : Nat) : ∀ n ∈ alignedSizes len k align, 0 < n := by
  intro n hn
  rcases Nat.eq_zero_or_pos len with rfl | hlen
  · simp at hn
  · rw [alignedSizes_eq] at hn
    obtain ⟨i, hi, rfl⟩ := List.mem_map.1 hn
    have hpos := alignedBlock_pos hlen k align
    have hlt := (lt_ceilDiv_iff hpos).1 (List.mem_range.1 hi)
    omega

theorem dvd_start_of_aligned {len k align : Nat} {r : RowRange} (hr : r ∈ rangesFrom 0 (alignedSizes len k align)) :
    max align 1 ∣ r.start := by
  obtain ⟨i, hi, hpos, hstart, -⟩ := mem_rangesFrom hr
  -- the chunks before a chunk that has rows are all of full length
  have hbefore : total ((alignedSizes len k align).take i) = min (i * alignedBlock len k align) len := by
    rw [alignedSizes_eq, List.length_map, List.length_range] at hi
    rw [alignedSizes_eq, ← List.map_take, List.take_range, Nat.min_eq_left hi.le, total_blocks]
  have hrows : 0 < len - i * alignedBlock len k align := by
    simp only [alignedSizes_eq, List.getElem_map, List.getElem_range] at hpos
    omega
  rw [hstart, hbefore, Nat.zero_add, Nat.min_eq_left (by omega)]
  exact Dvd.dvd.mul_left (Dvd.intro_left _ rfl) i

/-! ## Plans -/

/-- a small block gets a chunk for each task; a large one gets as many chunks for each task, up to the limit -/
theorem chunkCount?_cases {len k nk : Nat} {small : Bool} (hk : 0 < k) (h : chunkCount? len k small = some nk) :
    (small = true → nk = k) ∧ (small = false → k ∣ nk ∧ k ≤ nk ∧ nk ≤ oversubscription * k) := by
  unfold chunkCount? at h
  split_ifs at h with hsmall
  · obtain rfl := Option.some.inj h
    exact ⟨fun _ => rfl, fun hlarge => by rw [hsmall] at hlarge; cases hlarge⟩
  · obtain rfl := Option.some.inj h
    refine ⟨fun hs => absurd hs hsmall, fun _ => ⟨Dvd.intro_left _ rfl, ?_, ?_⟩⟩
    · have hup := le_ceilDiv_mul (max (min (oversubscription * k) (len / rowsPerChunk)) k) hk
      omega
    · refine Nat.mul_le_mul_right k ((ceilDiv_le_iff hk).2 ?_)
      unfold oversubscription
      omega

variable {α : Type} [Cell α]

/-- chunks of a block that is not compressed: as many as there are rows, or as many as a number that is `k` for small
blocks and otherwise a multiple of `k`, up to eight times `k` -/
def Chunked (b : Block α) (k : Nat) (config : RunConfig) (ranges : List RowRange) : Prop :=
  ∃ nk, ranges.length = min b.rows nk ∧ (b.rows * b.cols < 16 * config.parallelCells → nk = k) ∧
    (16 * config.parallelCells ≤ b.rows * b.cols → k ∣ nk ∧ k ≤ nk ∧ nk ≤ 8 * k)

omit [Cell α] in
/-- sizes of which none is empty, as many as are counted for the block, make chunks -/
theorem chunked_of_count {b : Block α} {k nk : Nat} {config : RunConfig} {sizes : List Nat} (hk : 0 < k)
    (hcells : b.rows * b.cols < wordCount) (hthreshold : 16 * config.parallelCells < wordCount)
    (hnk : chunkCount? b.rows k (b.cells < wrapped (16 * config.parallelCells)) = some nk)
    (hpos : ∀ n ∈ sizes, 0 < n) (hlength : sizes.length = min b.rows (max nk 1)) :
    Chunked b k config (rangesFrom 0 sizes) := by
  have hwhole : b.cells = b.rows * b.cols := Nat.mod_eq_of_lt hcells
  have hlimit : wrapped (16 * config.parallelCells) = 16 * config.parallelCells := Nat.mod_eq_of_lt hthreshold
  rw [hwhole, hlimit] at hnk
  obtain ⟨hsmall, hlarge⟩ := chunkCount?_cases hk hnk
  have hpositive : 0 < nk := by
    by_cases h : b.rows * b.cols < 16 * config.parallelCells
    · rw [hsmall (decide_eq_true h)]
      exact hk
    · exact hk.trans_le (hlarge (decide_eq_false h)).2.1
  refine ⟨nk, ?_, fun h => hsmall (decide_eq_true h), fun h => hlarge (decide_eq_false (Nat.not_lt.2 h))⟩
  rw [length_rangesFrom hpos, hlength, Nat.max_eq_left hpositive]

theorem size_mem_of_rangesFrom {start : Nat} {sizes : List Nat} {r : RowRange} (hr : r ∈ rangesFrom start sizes) :
    r.size ∈ sizes := by
  obtain ⟨i, hi, -, -, hstop⟩ := mem_rangesFrom hr
  rw [RowRange.size, hstop, Nat.add_sub_cancel_left]
  exact List.getElem_mem hi

/-- **Planned ranges tile the rows.** For at least one task there is a plan; its ranges are not empty and lie end to end
from the first row to the last, so that each row is in exactly one of them. A compressed block gets no more ranges than
there are tasks, each from a multiple of the alignment on. Every other block gets as many chunks as it has rows or, if
these are fewer, one for each task while it is small and otherwise the same number, up to eight, for each task; those of
a dense block differ in length by at most one. -/
theorem plan_ranges (b : Block α) {k : Nat} (hk : 1 ≤ k) (config : RunConfig) (hcells : b.rows * b.cols < wordCount)
    (hthreshold : 16 * config.parallelCells < wordCount) :
    ∃ ranges, plan? b k config = some ranges ∧ Tiles 0 b.rows ranges ∧ (b.rows = 0 → ranges = []) ∧
      (∀ i < b.rows, ∃! r, r ∈ ranges ∧ r.start ≤ i ∧ i < r.stop) ∧
      (b.isCompressed = true → ranges.length ≤ k ∧ ∀ r ∈ ranges, max config.compressedBlockRows 1 ∣ r.start) ∧
      (b.isCompressed = false → Chunked b k config ranges) ∧
      ∀ d, b = .dense d → ∀ r ∈ ranges, ∀ q ∈ ranges, r.size ≤ q.size + 1 := by
  obtain ⟨ranges, hplan⟩ := exists_plan b hk config
  have htiles := tiles_plan hplan
  have hempty : b.rows = 0 → ranges = [] := by
    intro hrows
    cases ranges with
    | nil => rfl
    | cons r rest =>
      have hle := htiles.stop_le r List.mem_cons_self
      have hlt := htiles.2.1
      omega
  refine ⟨ranges, hplan, htiles, hempty, fun i hi => htiles.existsUnique_range (Nat.zero_le i) hi, ?_⟩
  obtain ⟨sizes, hsizes, rfl⟩ := Option.map_eq_some_iff.1 hplan
  cases b with
  | compressed c =>
    obtain rfl := Option.some.inj hsizes
    refine ⟨fun _ => ⟨?_, fun r hr => dvd_start_of_aligned hr⟩, fun h => (by cases h), fun d hd => by cases hd⟩
    rw [length_rangesFrom (alignedSizes_pos _ _ _)]
    exact (length_alignedSizes_le _ _ _).trans (by omega)
  | dense d =>
    obtain ⟨nk, hnk, rfl⟩ := Option.map_eq_some_iff.1 hsizes
    refine ⟨fun h => (by cases h), fun _ => ?_, fun _ _ r hr q hq => ?_⟩
    · exact chunked_of_count hk hcells hthreshold hnk (fun n hn => (mem_balancedSizes hn).1) (length_balancedSizes _ _)
    · have hlong := (mem_balancedSizes (size_mem_of_rangesFrom hr)).2.2
      have hshort := (mem_balancedSizes (size_mem_of_rangesFrom hq)).2.1
      omega
  | sparse s =>
    obtain ⟨nk, hnk, rfl⟩ := Option.map_eq_some_iff.1 hsizes
    refine ⟨fun h => (by cases h), fun _ => ?_, fun d hd => by cases hd⟩
    simp only
    split_ifs
    · exact chunked_of_count hk hcells hthreshold hnk (fun n hn => (mem_balancedSizes hn).1) (length_balancedSizes _ _)
    · exact chunked_of_count hk hcells hthreshold hnk (weightedSizes_pos _ _ _) (length_weightedSizes _ _ _)

/-- a matrix of which the first row alone has entries -/
def headed : Block Int := .sparse ⟨4, 3, #[0, 3, 3, 3, 3], #[0, 1, 2], #[5, 6, 7]⟩

/-- where every block is large, two tasks share the matrix between its first row and the others -/
theorem headed_is_cut_behind_its_head : ∃ ranges, plan? headed 2 { parallelCells := 0, maxTasks := 2 } = some ranges ∧
    ranges = [⟨0, 1⟩, ⟨1, 4⟩] ∧ Tiles 0 4 ranges ∧ (∃! r, r ∈ ranges ∧ r.start ≤ 2 ∧ 2 < r.stop) ∧
    Chunked headed 2 { parallelCells := 0, maxTasks := 2 } ranges := by
  obtain ⟨ranges, hplan, htiles, -, hrows, -, hchunks, -⟩ :=
    plan_ranges headed (by decide : 1 ≤ 2) { parallelCells := 0, maxTasks := 2 } (by decide) (by decide)
  have hranges : plan? headed 2 { parallelCells := 0, maxTasks := 2 } = some [⟨0, 1⟩, ⟨1, 4⟩] := by decide
  exact ⟨ranges, hplan, Option.some.inj (hplan.symm.trans hranges), htiles, hrows 2 (by decide), hchunks rfl⟩

end MatrixEngine.Partition
