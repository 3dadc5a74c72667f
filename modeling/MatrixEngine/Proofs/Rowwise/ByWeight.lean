/-
Cuts by weight.

The rows are taken in one by one and the open chunk is closed once the weight of all rows so far reaches its target, the
share of the total that the chunks so far should have. If rows run short, every row left becomes a chunk of its own.
- `Cut.Spaced`: a chunk is open all the time, with a row for each chunk to come; so as many chunks come out as are asked
  for, none of them empty (`length_weightedSizes`, `weightedSizes_pos`).
- `Cut.OnTarget`, `Cut.OneByOne`: the two ways in which a cut goes on. In the first the closed chunks have reached their
  share and the open one has not, in the second each row left is a chunk.
- `weightedSizes_fair`: hence no chunk weighs more than its share of the total, rounded up, and one more row.
-/
import MatrixEngine.Proofs.Rowwise.Ranges

namespace MatrixEngine.Partition

/-- what one row taken in preserves holds after any number of rows -/
theorem Cut.run_of_step {P : Cut → Nat → Prop} {len nk all : Nat} {weight : Nat → Nat} (h0 : P {} 0)
    (hstep : ∀ c i, i < len → P c i → P (c.step len nk all weight i) (i + 1)) {n : Nat} (hn : n ≤ len) :
    P ((List.range n).foldl (Cut.step len nk all weight) {}) n := by
  induction n with
  | zero => exact h0
  | succ n ih =>
    rw [List.range_succ, List.foldl_append]
    exact hstep _ n (by omega) (ih (by omega))

/-! ## Number of chunks -/

/-- after `seen` rows a chunk is open, and there is a row for each chunk that is not closed, or it is the last one -/
structure Cut.Spaced (len nk : Nat) (c : Cut) (seen : Nat) : Prop where
  opened : c.sizes.length < nk
  room : c.sizes.length + 1 = nk ∨ nk - c.sizes.length ≤ len - seen
  positive : ∀ n ∈ c.sizes, 0 < n
  start_le : c.start ≤ seen
  start_lt : c.start < len

theorem Cut.spaced_step {len nk all : Nat} {weight : Nat → Nat} {c : Cut} {i : Nat} (hi : i < len)
    (h : c.Spaced len nk i) : (c.step len nk all weight i).Spaced len nk (i + 1) := by
  obtain ⟨hopened, hroom, hpositive, hle, hlt⟩ := h
  unfold Cut.step
  simp only
  split_ifs with hcut
  · -- the chunk is closed, and a row is left for each chunk to come
    obtain ⟨hmore, hleft, -⟩ := hcut
    refine ⟨by simp only [List.length_cons]; omega, .inr (by simp only [List.length_cons]; omega), ?_, le_rfl, by
      simp only; omega⟩
    intro n hn
    rcases List.mem_cons.1 hn with rfl | hn
    · omega
    · exact hpositive n hn
  · refine ⟨hopened, ?_, hpositive, by simp only; omega, hlt⟩
    simp only
    by_cases hlast : c.sizes.length + 1 = nk
    · exact .inl hlast
    · -- were rows short, the chunk would be closed
      by_contra hshort
      exact hcut ⟨by omega, by omega, .inr (by omega)⟩

/-- the cut that all rows are taken into -/
def wholeCut (len nk : Nat) (weight : Nat → Nat) : Cut :=
  (List.range len).foldl (Cut.step len nk (totalWeight len weight) weight) {}

theorem weightedSizes_eq {len nk : Nat} (weight : Nat → Nat) {c : Nat} (hc : c = min len (max nk 1)) (hpos : 0 < c) :
    weightedSizes len nk weight =
      (wholeCut len c weight).sizes.reverse ++ [len - (wholeCut len c weight).start] := by
  subst hc
  unfold weightedSizes
  simp only
  rw [if_neg (by omega)]
  rfl

theorem spaced_empty {len nk : Nat} (hpos : 0 < nk) (hle : nk ≤ len) : ({} : Cut).Spaced len nk 0 := by
  refine ⟨hpos, .inr hle, ?_, le_rfl, Nat.lt_of_lt_of_le hpos hle⟩
  intro n hn
  cases hn

theorem spaced_wholeCut {len nk : Nat} (hpos : 0 < nk) (hle : nk ≤ len) (weight : Nat → Nat) :
    (wholeCut len nk weight).Spaced len nk len :=
  Cut.run_of_step (P := fun c seen => c.Spaced len nk seen) (spaced_empty hpos hle)
    (fun _ _ hi h => Cut.spaced_step hi h) le_rfl

/-- **A cut by weight has as many chunks as are asked for**, or as there are rows, whatever the weights. -/
theorem length_weightedSizes (len nk : Nat) (weight : Nat → Nat) :
    (weightedSizes len nk weight).length = min len (max nk 1) := by
  rcases Nat.eq_zero_or_pos len with rfl | hlen
  · rfl
  · have hspaced := spaced_wholeCut (show 0 < min len (max nk 1) by omega) (Nat.min_le_left _ _) weight
    have hopened := hspaced.opened
    have hroom := hspaced.room
    rw [weightedSizes_eq weight rfl (by omega), List.length_append, List.length_reverse, List.length_singleton]
    omega

theorem weightedSizes_pos (len nk : Nat) (weight : Nat → Nat) : ∀ n ∈ weightedSizes len nk weight, 0 < n := by
  rcases Nat.eq_zero_or_pos len with rfl | hlen
  · intro n hn
    cases hn
  · have hspaced := spaced_wholeCut (show 0 < min len (max nk 1) by omega) (Nat.min_le_left _ _) weight
    intro n hn
    rw [weightedSizes_eq weight rfl (by omega), List.mem_append, List.mem_reverse, List.mem_singleton] at hn
    rcases hn with hn | rfl
    · exact hspaced.positive n hn
    · have := hspaced.start_lt
      omega

/-! ## Weight of chunks -/

def weightBefore (weight : Nat → Nat) (n : Nat) : Nat := total ((List.range n).map weight)

def weightOf (weight : Nat → Nat) (r : RowRange) : Nat := total (r.rows.map weight)

def heaviest (len : Nat) (weight : Nat → Nat) : Nat := (Finset.range len).sup weight

/-- what a chunk may weigh: its share of the total, rounded up, and one more row -/
def fairWeight (len nk : Nat) (weight : Nat → Nat) : Nat := ceilDiv (weightBefore weight len) nk + heaviest len weight

section Weights

variable {len nk : Nat} {weight : Nat → Nat} {a b i : Nat}

theorem weightBefore_succ (weight : Nat → Nat) (n : Nat) :
    weightBefore weight (n + 1) = weightBefore weight n + weight n := total_map_range_succ n weight

theorem weightBefore_add (weight : Nat → Nat) (a n : Nat) :
    weightBefore weight (a + n) = weightBefore weight a + weightOf weight ⟨a, a + n⟩ := by
  have hsplit := List.range'_append_1 (s := 0) (m := a) (n := n)
  rw [Nat.zero_add] at hsplit
  rw [weightBefore, weightBefore, weightOf, RowRange.rows, RowRange.size, Nat.add_sub_cancel_left, ← total_append,
    ← List.map_append, List.range_eq_range', List.range_eq_range', hsplit]

theorem weightOf_eq (h : a ≤ b) : weightOf weight ⟨a, b⟩ = weightBefore weight b - weightBefore weight a := by
  obtain ⟨n, rfl⟩ := Nat.exists_eq_add_of_le h
  rw [weightBefore_add]
  omega

theorem weightBefore_mono (h : a ≤ b) : weightBefore weight a ≤ weightBefore weight b := by
  obtain ⟨n, rfl⟩ := Nat.exists_eq_add_of_le h
  rw [weightBefore_add]
  omega

theorem le_heaviest (h : i < len) : weight i ≤ heaviest len weight :=
  Finset.le_sup (f := weight) (Finset.mem_range.2 h)

/-- one row weighs no more than a chunk may -/
theorem row_le_fairWeight (h : i < len) : weightOf weight ⟨i, i + 1⟩ ≤ fairWeight len nk weight := by
  have hrow : weight i ≤ heaviest len weight := le_heaviest h
  rw [weightOf_eq (Nat.le_succ i), weightBefore_succ, fairWeight]
  omega

/-- the share of the first `j` of `nk` chunks in a total -/
def target (all nk j : Nat) : Nat := all * j / nk

/-- one more chunk raises the share by an equal part, rounded up -/
theorem target_succ_le (all : Nat) (hnk : 0 < nk) (j : Nat) : target all nk (j + 1) ≤ target all nk j + ceilDiv all nk :=
  calc all * (j + 1) / nk ≤ (all * j + ceilDiv all nk * nk) / nk :=
        Nat.div_le_div_right (by rw [Nat.mul_succ]; exact Nat.add_le_add_left (le_ceilDiv_mul all hnk) _)
    _ = all * j / nk + ceilDiv all nk := Nat.add_mul_div_right _ _ hnk

theorem target_self (all : Nat) (hnk : 0 < nk) : target all nk nk = all := Nat.mul_div_cancel all hnk

end Weights

/-- the closed chunks have reached their share, and the rows of the open one have not reached theirs -/
structure Cut.OnTarget (len nk : Nat) (weight : Nat → Nat) (c : Cut) (seen : Nat) : Prop where
  reached : target (weightBefore weight len) nk c.sizes.length ≤ weightBefore weight c.start
  pending : c.sizes.length + 1 < nk → c.start < seen →
    weightBefore weight seen < target (weightBefore weight len) nk (c.sizes.length + 1)

/-- every row from the open chunk on is a chunk of its own -/
structure Cut.OneByOne (len nk : Nat) (c : Cut) (seen : Nat) : Prop where
  left : len - c.start = nk - c.sizes.length
  fresh : c.sizes.length + 1 < nk → c.start = seen

/-- the closed chunks weigh no more than they may, and the cut goes on in one of the two ways -/
structure Cut.Fair (len nk : Nat) (weight : Nat → Nat) (c : Cut) (seen : Nat) : Prop where
  weighed : c.weight = weightBefore weight seen
  closed : ∀ r ∈ rangesFrom 0 c.sizes.reverse, weightOf weight r ≤ fairWeight len nk weight
  ahead : c.OnTarget len nk weight seen ∨ c.OneByOne len nk seen

section Steps

variable {len nk : Nat} {weight : Nat → Nat} {c : Cut} {i : Nat}

/-- without overflow a step compares the weight so far with the target of the open chunk -/
theorem Cut.step_eq (hfits : weightBefore weight len * nk < wordCount) (hi : i < len) (hspaced : c.Spaced len nk i)
    (hweighed : c.weight = weightBefore weight i) :
    c.step len nk (totalWeight len weight) weight i =
      if c.sizes.length + 1 < nk ∧ (target (weightBefore weight len) nk (c.sizes.length + 1) ≤ weightBefore weight (i + 1) ∨
          len - (i + 1) < nk - c.sizes.length) then
        { sizes := (i + 1 - c.start) :: c.sizes, start := i + 1, weight := weightBefore weight (i + 1) }
      else { c with weight := weightBefore weight (i + 1) } := by
  have hopened := hspaced.opened
  have hroom := hspaced.room
  have hall : weightBefore weight len < wordCount :=
    lt_of_le_of_lt (Nat.le_mul_of_pos_right _ (by omega)) hfits
  have htotal : totalWeight len weight = weightBefore weight len := Nat.mod_eq_of_lt hall
  have hacc : wrapped (c.weight + weight i) = weightBefore weight (i + 1) := by
    rw [hweighed, ← weightBefore_succ]
    exact Nat.mod_eq_of_lt (lt_of_le_of_lt (weightBefore_mono hi) hall)
  have htarget : wrapped (weightBefore weight len * (c.sizes.length + 1)) / nk =
      target (weightBefore weight len) nk (c.sizes.length + 1) := by
    rw [wrapped, Nat.mod_eq_of_lt (lt_of_le_of_lt (Nat.mul_le_mul_left _ hopened) hfits)]
    rfl
  unfold Cut.step
  simp only [htotal, hacc, htarget]
  -- a chunk that is not the last one leaves rows enough
  refine if_congr ?_ rfl rfl
  constructor
  · rintro ⟨hmore, -, hcut⟩
    exact ⟨by omega, hcut⟩
  · rintro ⟨hmore, hcut⟩
    exact ⟨by omega, by omega, hcut⟩

theorem Cut.closed_cons {stop : Nat} (hsum : total c.sizes = c.start) (hlt : c.start < stop)
    (hclosed : ∀ r ∈ rangesFrom 0 c.sizes.reverse, weightOf weight r ≤ fairWeight len nk weight)
    (hlast : weightOf weight ⟨c.start, stop⟩ ≤ fairWeight len nk weight) :
    ∀ r ∈ rangesFrom 0 ((stop - c.start) :: c.sizes).reverse, weightOf weight r ≤ fairWeight len nk weight := by
  intro r hr
  rw [List.reverse_cons, rangesFrom_append, total_reverse, hsum, Nat.zero_add, List.mem_append] at hr
  rcases hr with hr | hr
  · exact hclosed r hr
  · rw [rangesFrom, if_neg (by omega), rangesFrom, List.mem_singleton] at hr
    rw [hr, Nat.add_sub_cancel' hlt.le]
    exact hlast

/-- the open chunk with the next row weighs no more than it may -/
theorem Cut.OnTarget.open_le (h : c.OnTarget len nk weight i) (hmore : c.sizes.length + 1 < nk) (hi : i < len)
    (hle : c.start ≤ i) : weightOf weight ⟨c.start, i + 1⟩ ≤ fairWeight len nk weight := by
  rcases Nat.eq_or_lt_of_le hle with heq | hlt
  · rw [heq]
    exact row_le_fairWeight hi
  · have hpending := h.pending hmore hlt
    have hreached := h.reached
    have hshare := target_succ_le (weightBefore weight len) (by omega : 0 < nk) c.sizes.length
    have hrow : weight i ≤ heaviest len weight := le_heaviest hi
    rw [weightOf_eq (by omega), weightBefore_succ, fairWeight]
    omega

theorem Cut.fair_step (hfits : weightBefore weight len * nk < wordCount) (hi : i < len)
    (hspaced : c.Spaced len nk i) (hclosed : c.Closed i) (h : c.Fair len nk weight i) :
    (c.step len nk (totalWeight len weight) weight i).Fair len nk weight (i + 1) := by
  obtain ⟨hsum, hle⟩ := hclosed
  have hroom := hspaced.room
  rw [Cut.step_eq hfits hi hspaced h.weighed]
  rcases h.ahead with htarget | hsingle
  · split_ifs with hcut
    · obtain ⟨hmore, hreached⟩ := hcut
      refine ⟨rfl, Cut.closed_cons hsum (Nat.lt_succ_of_le hle) h.closed (htarget.open_le hmore hi hle), ?_⟩
      by_cases hshare : target (weightBefore weight len) nk (c.sizes.length + 1) ≤ weightBefore weight (i + 1)
      · exact .inl ⟨hshare, fun _ hlt => absurd hlt (lt_irrefl _)⟩
      · have hshort := hreached.resolve_left hshare
        exact .inr ⟨by simp only [List.length_cons]; omega, fun _ => rfl⟩
    · refine ⟨rfl, h.closed, .inl ⟨htarget.reached, fun hmore _ => ?_⟩⟩
      by_contra hshare
      exact hcut ⟨hmore, .inl (Nat.le_of_not_lt hshare)⟩
  · have hleft := hsingle.left
    split_ifs with hcut
    · have hfresh := hsingle.fresh hcut.1
      refine ⟨rfl, Cut.closed_cons hsum (Nat.lt_succ_of_le hle) h.closed ?_, .inr ⟨?_, fun _ => rfl⟩⟩
      · rw [hfresh]
        exact row_le_fairWeight hi
      · simp only [List.length_cons]
        omega
    · -- only the last chunk stays open
      refine ⟨rfl, h.closed, .inr ⟨hleft, fun hmore => ?_⟩⟩
      have hfresh := hsingle.fresh hmore
      exact absurd ⟨hmore, .inr (by omega)⟩ hcut

theorem fair_wholeCut (hpos : 0 < nk) (hle : nk ≤ len) (hfits : weightBefore weight len * nk < wordCount) :
    (wholeCut len nk weight).Fair len nk weight len := by
  have hempty : ({} : Cut).Fair len nk weight 0 := by
    refine ⟨rfl, ?_, .inl ⟨by simp [target], fun _ hlt => absurd hlt (lt_irrefl _)⟩⟩
    intro r hr
    cases hr
  have hall : (wholeCut len nk weight).Spaced len nk len ∧ (wholeCut len nk weight).Closed len ∧
      (wholeCut len nk weight).Fair len nk weight len := by
    refine Cut.run_of_step (P := fun c seen => c.Spaced len nk seen ∧ c.Closed seen ∧ c.Fair len nk weight seen)
      ⟨spaced_empty hpos hle, ⟨rfl, le_rfl⟩, hempty⟩ ?_ le_rfl
    rintro c i hi ⟨hspaced, hclosed, hfair⟩
    exact ⟨Cut.spaced_step hi hspaced, Cut.closed_step hclosed _ _ _ _, Cut.fair_step hfits hi hspaced hclosed hfair⟩
  exact hall.2.2

/-- the chunk that is open after the last row is the last one, and weighs no more than it may -/
theorem Cut.Fair.last_le (h : c.Fair len nk weight len) (hspaced : c.Spaced len nk len) :
    weightOf weight ⟨c.start, len⟩ ≤ fairWeight len nk weight := by
  have hopened := hspaced.opened
  have hroom := hspaced.room
  have hstart := hspaced.start_lt
  have hlast : c.sizes.length + 1 = nk := by omega
  rcases h.ahead with htarget | hsingle
  · have hreached := htarget.reached
    have hshare := target_succ_le (weightBefore weight len) (by omega : 0 < nk) c.sizes.length
    rw [hlast, target_self _ (by omega)] at hshare
    rw [weightOf_eq (by omega), fairWeight]
    omega
  · have hleft := hsingle.left
    have hlen : c.start + 1 = len := by omega
    have hrow : weightOf weight ⟨c.start, c.start + 1⟩ ≤ fairWeight len nk weight := row_le_fairWeight hstart
    rwa [hlen] at hrow

end Steps

/-- **A cut by weight is fair.** Rows are cut into as many chunks as are asked for, or into single rows if there are
fewer of them; no chunk is empty, and no chunk weighs more than an equal share of the total, rounded up, and the heaviest
row, as long as the total times the number of chunks is a word. -/
theorem weightedSizes_fair (len nk : Nat) (weight : Nat → Nat)
    (hfits : total ((List.range len).map weight) * min len (max nk 1) < wordCount) :
    (weightedSizes len nk weight).length = min len (max nk 1) ∧ (∀ n ∈ weightedSizes len nk weight, 1 ≤ n) ∧
    total (weightedSizes len nk weight) = len ∧
    ∀ r ∈ rangesFrom 0 (weightedSizes len nk weight), total (r.rows.map weight) ≤
      ceilDiv (total ((List.range len).map weight)) (min len (max nk 1)) + (Finset.range len).sup weight := by
  refine ⟨length_weightedSizes len nk weight, weightedSizes_pos len nk weight, total_weightedSizes len nk weight, ?_⟩
  rcases Nat.eq_zero_or_pos len with rfl | hlen
  · intro r hr
    cases hr
  · have hpos : 0 < min len (max nk 1) := by omega
    have hspaced := spaced_wholeCut hpos (Nat.min_le_left _ _) weight
    have hfair := fair_wholeCut hpos (Nat.min_le_left _ _) hfits
    have hclosed := Cut.closed_run len (min len (max nk 1)) (totalWeight len weight) len weight
    rw [weightedSizes_eq weight rfl hpos, ← List.reverse_cons]
    exact Cut.closed_cons hclosed.1 hspaced.start_lt hfair.closed (hfair.last_le hspaced)

/-- nothing but the last of five rows weighs anything -/
def lastRowWeight (i : Nat) : Nat := if i = 4 then 9 else 0

/-- for want of weight the first chunk grows until each row left has to be a chunk -/
theorem last_row_is_cut_off : total ((List.range 5).map lastRowWeight) * min 5 (max 4 1) < wordCount ∧
    weightedSizes 5 4 lastRowWeight = [2, 1, 1, 1] ∧
    ∀ r ∈ rangesFrom 0 (weightedSizes 5 4 lastRowWeight), total (r.rows.map lastRowWeight) ≤ 3 + 9 := by
  have hfits : total ((List.range 5).map lastRowWeight) * min 5 (max 4 1) < wordCount := by decide
  exact ⟨hfits, by decide, (weightedSizes_fair 5 4 lastRowWeight hfits).2.2.2⟩

end MatrixEngine.Partition
