/-
The shortest decimal of a float lies in its rounding interval.

On the grid of seventeen digits behind the leading one, the point below a float is nearer to it than a quarter of the
distance to its neighbours (`onGrid?_seventeen`). So one of the grids that are searched has a hit, and only hits are
answered: the search never runs out (`shortest_covers`).
-/
import MatrixEngine.Proofs.Number.Rounding

namespace MatrixEngine

namespace Decimal

variable {x : BinaryMagnitude} {b : Nat} {e k : Int}

theorem normalize_spec (d : Decimal) :
    (normalize d).value = d.value ∧ (d.coefficient ≠ 0 → (normalize d).coefficient ≠ 0) := by
  induction hc : d.coefficient using Nat.strong_induction_on generalizing d with
  | _ c ih =>
    rw [normalize]
    split
    · rename_i h
      have hten : 10 * (d.coefficient / 10) = d.coefficient := Nat.mul_div_cancel' (Nat.dvd_of_mod_eq_zero h.2)
      obtain ⟨hvalue, hzero⟩ := ih (d.coefficient / 10) (by omega) ⟨d.coefficient / 10, d.exponent + 1⟩ rfl
      refine ⟨hvalue.trans ?_, fun _ => hzero (by omega)⟩
      have hcast : (d.coefficient : ℚ) = 10 * (d.coefficient / 10 : Nat) := by exact_mod_cast hten.symm
      rw [value, value, hcast, zpow_add₀ (by norm_num), zpow_one]
      ring
    · exact ⟨rfl, fun h => hc ▸ h⟩

theorem leadingExponent_le {num den : Nat} (hnum : 0 < num) (hden : 0 < den) :
    (10 : ℚ) ^ leadingExponent num den ≤ num / den := by
  have hden' : (0 : ℚ) < den := by exact_mod_cast hden
  unfold leadingExponent
  split
  · rename_i hle
    have hquot : num / den ≠ 0 := (Nat.div_pos hle hden).ne'
    have hdigits : 0 < (Nat.toDigits 10 (num / den)).length := Nat.length_toDigits_pos
    have hpow : 10 ^ ((Nat.toDigits 10 (num / den)).length - 1) ≤ num / den := by
      rcases Nat.eq_zero_or_pos ((Nat.toDigits 10 (num / den)).length - 1) with hone | hmore
      · rw [hone, pow_zero]
        exact Nat.pos_of_ne_zero hquot
      · by_contra hlt
        have := (Nat.length_toDigits_le_iff (b := 10) (by norm_num) hmore).2 (not_le.1 hlt)
        omega
    have hexponent :
        ((digitCount (num / den) : Int) - 1) = (((Nat.toDigits 10 (num / den)).length - 1 : Nat) : Int) := by
      rw [digitCount, if_neg hquot]
      omega
    rw [hexponent, zpow_natCast, le_div_iff₀ hden']
    calc (10 : ℚ) ^ ((Nat.toDigits 10 (num / den)).length - 1) * den ≤ (num / den : Nat) * den := by
          refine mul_le_mul_of_nonneg_right ?_ hden'.le
          exact_mod_cast hpow
      _ ≤ num := by exact_mod_cast Nat.div_mul_le_self num den
  · rename_i hlt
    have hpow : (den - 1) / num < 10 ^ digitCount ((den - 1) / num) := by
      rw [digitCount]
      split
      · rename_i hzero
        rw [hzero]
        exact one_pos
      · exact (Nat.length_toDigits_le_iff (by norm_num) Nat.length_toDigits_pos).1 le_rfl
    have hmul : den ≤ num * 10 ^ digitCount ((den - 1) / num) := by
      have := (Nat.div_lt_iff_lt_mul hnum).1 hpow
      rw [Nat.mul_comm] at this
      omega
    rw [zpow_neg, zpow_natCast, inv_le_comm₀ (by positivity) (by positivity), inv_div, div_le_iff₀ (by positivity),
      mul_comm]
    exact_mod_cast hmul

/-- an answer of the search is in the rounding interval and not zero -/
def Hits (x : BinaryMagnitude) (d : Decimal) : Prop := x.contains d.coefficient d.exponent = true ∧ d.coefficient ≠ 0

theorem onGrid?_hits {d : Decimal} (h : onGrid? x e = some d) : Hits x d := by
  unfold onGrid? at h
  generalize (if e < 0 then (x.num * Nat.pow 10 (-e).toNat, x.den) else (x.num, x.den * Nat.pow 10 e.toNat)) = q at h
  obtain ⟨num, den⟩ := q
  dsimp only at h
  have hlo : ∀ {lo : Nat}, (x.contains lo e && lo != 0) = true → Hits x ⟨lo, e⟩ := fun hlo => by
    rw [Bool.and_eq_true, bne_iff_ne] at hlo
    exact hlo
  have hhi : ∀ {lo : Nat}, x.contains (lo + 1) e = true → Hits x ⟨lo + 1, e⟩ := fun hhi => ⟨hhi, Nat.succ_ne_zero _⟩
  split at h
  · cases h
  · rename_i h₁ _
    exact Option.some.inj h ▸ hlo h₁
  · rename_i _ h₂
    exact Option.some.inj h ▸ hhi h₂
  · rename_i h₁ h₂
    split_ifs at h
    · exact Option.some.inj h ▸ hlo h₁
    · exact Option.some.inj h ▸ hhi h₂
    · exact Option.some.inj h ▸ hlo h₁
    · exact Option.some.inj h ▸ hhi h₂

/-- the grid point below a magnitude -/
theorem onGrid?_floor (hden : 0 < x.den) (e : Int) : ∃ lo : Nat,
    (lo : ℚ) * 10 ^ e ≤ x.num / x.den ∧ (x.num / x.den : ℚ) < (lo + 1) * 10 ^ e ∧
      ((x.contains lo e && lo != 0) = true → (onGrid? x e).isSome) := by
  set q := (if e < 0 then (x.num * Nat.pow 10 (-e).toNat, x.den) else (x.num, x.den * Nat.pow 10 e.toNat)) with hq
  have hquot : 0 < q.2 ∧ (x.num / x.den : ℚ) = q.1 / q.2 * 10 ^ e := by
    have hden' : (x.den : ℚ) ≠ 0 := by exact_mod_cast hden.ne'
    rcases lt_or_ge e 0 with he | he
    · rw [hq, if_pos he]
      have hneg : e = -((-e).toNat : Int) := by omega
      refine ⟨hden, ?_⟩
      conv_rhs => rw [hneg]
      rw [zpow_neg, zpow_natCast, Int.neg_neg, Int.toNat_natCast]
      push_cast [Nat.pow_eq]
      field_simp
    · rw [hq, if_neg (not_lt.2 he)]
      refine ⟨Nat.mul_pos hden (Nat.pow_pos (by norm_num)), ?_⟩
      conv_rhs => rw [← Int.toNat_of_nonneg he]
      rw [zpow_natCast, Int.toNat_natCast]
      push_cast [Nat.pow_eq]
      field_simp
  obtain ⟨hpos, hvalue⟩ := hquot
  have hpos' : (0 : ℚ) < q.2 := by exact_mod_cast hpos
  have hten : (0 : ℚ) < 10 ^ e := zpow_pos (by norm_num) e
  refine ⟨q.1 / q.2, ?_, ?_, fun hlo => ?_⟩
  · rw [hvalue]
    refine mul_le_mul_of_nonneg_right ((le_div_iff₀ hpos').2 ?_) hten.le
    exact_mod_cast Nat.div_mul_le_self q.1 q.2
  · rw [hvalue]
    refine mul_lt_mul_of_pos_right ((div_lt_iff₀ hpos').2 ?_) hten
    rw [mul_comm]
    exact_mod_cast Nat.lt_mul_div_succ q.1 hpos
  · unfold onGrid?
    rw [← hq]
    dsimp only
    rw [hlo]
    split
    · rename_i h _
      cases h
    · rfl
    · rename_i h _
      cases h
    · split_ifs <;> rfl

theorem significand_lt (b : Nat) : BinaryMagnitude.significand b < 2 ^ 53 := by
  unfold BinaryMagnitude.significand BinaryMagnitude.fraction
  split <;> omega

/-- seventeen digits behind the leading one suffice: the grid point below is nearer than a quarter of the unit -/
theorem onGrid?_seventeen (hx : x.Decodes b) (hnum : x.num ≠ 0) (hk : (10 : ℚ) ^ k ≤ x.num / x.den) :
    (onGrid? x (k - 17)).isSome := by
  obtain ⟨lo, hbelow, habove, hsome⟩ := onGrid?_floor hx.den_pos (k - 17)
  have hten : (0 : ℚ) < 10 ^ (k - 17) := zpow_pos (by norm_num) _
  have hscale : (10 : ℚ) ^ k = 10 ^ (k - 17) * 10 ^ 17 := by
    rw [← zpow_natCast, ← zpow_add₀ (by norm_num)]
    congr 1
    push_cast
    ring
  have hunit := BinaryMagnitude.unit_pos b
  have hfine : (10 : ℚ) ^ (k - 17) < BinaryMagnitude.unit b / 4 := by
    have hsignificand : (BinaryMagnitude.significand b : ℚ) ≤ 2 ^ 53 := by exact_mod_cast (significand_lt b).le
    have hvalue : (x.num / x.den : ℚ) ≤ 2 ^ 53 * BinaryMagnitude.unit b := by
      rw [hx.value]
      exact mul_le_mul_of_nonneg_right hsignificand hunit.le
    rw [hscale] at hk
    linarith
  have hlow : x.low ≤ x.num / x.den - BinaryMagnitude.unit b / 4 := by
    rw [hx.low, hx.value, BinaryMagnitude.lower, sub_mul]
    split <;> linarith
  have hhigh : (x.num / x.den : ℚ) < x.high := by
    rw [hx.high, hx.value, BinaryMagnitude.upper, add_mul]
    linarith
  refine hsome (Bool.and_eq_true_iff.2 ⟨?_, bne_iff_ne.2 fun hzero => ?_⟩)
  · have hcovers : x.low < Decimal.value ⟨lo, k - 17⟩ ∧ Decimal.value ⟨lo, k - 17⟩ < x.high := by
      rw [value]
      constructor <;> linarith
    rw [BinaryMagnitude.contains_iff hx.den_pos (hx.below hnum), BinaryMagnitude.Covers]
    split
    · exact ⟨hcovers.1.le, hcovers.2.le⟩
    · exact hcovers
  · rw [hscale] at hk
    rw [hzero] at habove
    push_cast at habove
    linarith

theorem firstGrid_hits {tries n : Nat} (h : ∃ j < tries, (onGrid? x (k - (n + j : Nat))).isSome) :
    Hits x (firstGrid x k tries n) := by
  induction tries generalizing n with
  | zero =>
    obtain ⟨j, hj, -⟩ := h
    omega
  | succ tries ih =>
    rw [firstGrid]
    split
    · rename_i d hd
      exact onGrid?_hits hd
    · rename_i hnone
      obtain ⟨j, hj, hsome⟩ := h
      cases j with
      | zero =>
        rw [Nat.add_zero, hnone] at hsome
        cases hsome
      | succ j => exact ih ⟨j, by omega, by rwa [Nat.add_right_comm, Nat.add_assoc]⟩

/-- **The shortest decimal of a float is in its rounding interval**, and so reads back as that float. -/
theorem shortest_covers (hx : x.Decodes b) (hnum : x.num ≠ 0) :
    x.Covers (shortest x).value ∧ (shortest x).coefficient ≠ 0 := by
  have hlead := leadingExponent_le (Nat.pos_of_ne_zero hnum) hx.den_pos
  have hhits : Hits x (firstGrid x (leadingExponent x.num x.den) 18 0) :=
    firstGrid_hits ⟨17, by norm_num, onGrid?_seventeen hx hnum hlead⟩
  obtain ⟨hcontains, hcoefficient⟩ := hhits
  obtain ⟨hvalue, hnormal⟩ := normalize_spec (firstGrid x (leadingExponent x.num x.den) 18 0)
  refine ⟨?_, hnormal hcoefficient⟩
  rw [shortest, hvalue]
  exact (BinaryMagnitude.contains_iff hx.den_pos (hx.below hnum) _ _).1 hcontains

end Decimal

end MatrixEngine
