/-
Rounding intervals of floats.

The low 63 bits of a float number the magnitudes upwards. What lies between two neighbours belongs to one of their
rounding intervals: the upper end of one interval is the lower end of the next (`upper_eq_lower`), and of two neighbours
one has an even significand and takes the point between them. So a number is in the interval of one magnitude only
(`covers_unique`).
-/
import Mathlib.Algebra.Order.Field.Power
import Mathlib.Data.Rat.Cast.Order
import Mathlib.Tactic.FieldSimp
import Mathlib.Tactic.Linarith
import Mathlib.Tactic.Positivity
import Mathlib.Tactic.Ring
import MatrixEngine.Number.Decimal

namespace MatrixEngine

/-- the number that a decimal stands for -/
def Decimal.value (d : Decimal) : ℚ := d.coefficient * 10 ^ d.exponent

namespace BinaryMagnitude

variable {x y : BinaryMagnitude} {v : ℚ} {b c : Nat}

def low (x : BinaryMagnitude) : ℚ := (4 * x.num - x.below) / (4 * x.den)

def high (x : BinaryMagnitude) : ℚ := (4 * x.num + x.above) / (4 * x.den)

/-- a number in the rounding interval -/
def Covers (x : BinaryMagnitude) (v : ℚ) : Prop :=
  if x.closed then x.low ≤ v ∧ v ≤ x.high else x.low < v ∧ v < x.high

theorem Covers.ends (h : x.Covers v) : x.low ≤ v ∧ v ≤ x.high := by
  unfold Covers at h
  split at h
  · exact h
  · exact ⟨h.1.le, h.2.le⟩

theorem Covers.closed_of_end (h : x.Covers v) (hv : v = x.low ∨ v = x.high) : x.closed = true := by
  unfold Covers at h
  split at h
  · assumption
  · rcases hv with rfl | rfl
    · exact absurd h.1 (lt_irrefl _)
    · exact absurd h.2 (lt_irrefl _)

/-- a power of ten as the quotient that comparisons multiply out -/
theorem tenPower_eq (e : Int) : ((if e < 0 then (1, Nat.pow 10 (-e).toNat) else (Nat.pow 10 e.toNat, 1)) : Nat × Nat) =
    (10 ^ e.toNat, 10 ^ (-e).toNat) ∧ (10 : ℚ) ^ e = (10 ^ e.toNat : Nat) / (10 ^ (-e).toNat : Nat) := by
  rcases lt_or_ge e 0 with he | he
  · have hzero : e.toNat = 0 := Int.toNat_of_nonpos he.le
    refine ⟨by rw [if_pos he, hzero]; rfl, ?_⟩
    have hneg : e = -((-e).toNat : Int) := by omega
    rw [hzero]
    conv_lhs => rw [hneg]
    rw [zpow_neg, zpow_natCast]
    push_cast
    ring
  · have hzero : (-e).toNat = 0 := Int.toNat_of_nonpos (by omega)
    refine ⟨by rw [if_neg (not_lt.2 he), hzero]; rfl, ?_⟩
    rw [hzero]
    conv_lhs => rw [← Int.toNat_of_nonneg he]
    rw [zpow_natCast]
    push_cast
    ring

theorem ratio_lt_iff {a b c d : Nat} (hb : 0 < b) (hd : 0 < d) : (a / b : ℚ) < c / d ↔ a * d < c * b := by
  rw [div_lt_div_iff₀ (by exact_mod_cast hb) (by exact_mod_cast hd)]
  exact_mod_cast Iff.rfl

theorem ratio_le_iff {a b c d : Nat} (hb : 0 < b) (hd : 0 < d) : (a / b : ℚ) ≤ c / d ↔ a * d ≤ c * b := by
  rw [← not_lt, ratio_lt_iff hd hb, not_lt]

/-- the check in natural numbers decides whether a decimal lies in the interval -/
theorem contains_iff (hden : 0 < x.den) (hbelow : x.below ≤ 4 * x.num) (d : Nat) (e : Int) :
    x.contains d e = true ↔ x.Covers (Decimal.value ⟨d, e⟩) := by
  obtain ⟨hpair, hpower⟩ := tenPower_eq e
  have hdown : 0 < 10 ^ (-e).toNat := Nat.pow_pos (by norm_num)
  have hfour : 0 < 4 * x.den := by omega
  have hvalue : Decimal.value ⟨d, e⟩ = ((d * 10 ^ e.toNat : Nat) : ℚ) / (10 ^ (-e).toNat : Nat) := by
    rw [Decimal.value, hpower, ← mul_div_assoc, Nat.cast_mul]
  have hlow : x.low = ((4 * x.num - x.below : Nat) : ℚ) / (4 * x.den : Nat) := by
    rw [low]
    push_cast [hbelow]
    rfl
  have hhigh : x.high = ((4 * x.num + x.above : Nat) : ℚ) / (4 * x.den : Nat) := by
    rw [high]
    push_cast
    rfl
  unfold contains Covers
  rw [hpair, hvalue, hlow, hhigh, ratio_lt_iff hfour hdown, ratio_lt_iff hdown hfour, ratio_le_iff hfour hdown,
    ratio_le_iff hdown hfour]
  dsimp only
  split <;> simp

/-! ## The magnitudes in their order -/

def fraction (b : Nat) : Nat := b % 0x10000000000000

def biased (b : Nat) : Nat := b / 0x10000000000000

def significand (b : Nat) : Nat := if biased b = 0 then fraction b else 0x10000000000000 + fraction b

/-- the exponent of two of the last place -/
def place (b : Nat) : Int := (if biased b = 0 then 1 else (biased b : Int)) - 1075

/-- the distance to the magnitude above -/
def unit (b : Nat) : ℚ := 2 ^ place b

/-- the lower end of the interval: the magnitude below a power of two is only half as far -/
def lower (b : Nat) : ℚ := (significand b - if fraction b = 0 ∧ 1 < biased b then 1 / 4 else 1 / 2) * unit b

def upper (b : Nat) : ℚ := (significand b + 1 / 2) * unit b

theorem unit_pos (b : Nat) : 0 < unit b := zpow_pos (by norm_num) _

theorem significand_mod_two (b : Nat) : significand b % 2 = b % 2 := by
  unfold significand fraction
  split <;> omega

/-- the interval of one magnitude ends where the next one begins -/
theorem upper_eq_lower (b : Nat) : upper b = lower (b + 1) := by
  have hfraction : fraction b < 0x10000000000000 := Nat.mod_lt _ (by norm_num)
  by_cases hcarry : fraction b + 1 = 0x10000000000000
  · have hnext : fraction (b + 1) = 0 := by
      unfold fraction at hcarry ⊢
      omega
    have hbiased : biased (b + 1) = biased b + 1 := by
      unfold fraction at hcarry
      unfold biased
      omega
    have hlast : (fraction b : ℚ) = 0x10000000000000 - 1 := by
      rw [eq_sub_iff_add_eq]
      exact_mod_cast hcarry
    by_cases hzero : biased b = 0
    · simp only [upper, lower, unit, significand, place, hbiased, hnext, hzero]
      norm_num
      linarith
    · have hone : 1 < biased b + 1 := by omega
      have hunit : unit (b + 1) = 2 * unit b := by
        have hplace : place (b + 1) = 1 + place b := by
          simp only [place, hbiased, if_neg hzero]
          push_cast
          ring
        rw [unit, hplace, zpow_add₀ (by norm_num), zpow_one, unit]
      rw [upper, lower, hunit]
      simp only [significand, hbiased, hnext, if_neg hzero, hone]
      push_cast [hlast]
      norm_num
      ring
  · have hnext : fraction (b + 1) = fraction b + 1 := by
      unfold fraction at hcarry hfraction ⊢
      omega
    have hbiased : biased (b + 1) = biased b := by
      unfold fraction at hcarry hfraction
      unfold biased
      omega
    have hsignificand : significand (b + 1) = significand b + 1 := by
      simp only [significand, hbiased, hnext]
      split <;> omega
    rw [upper, lower, hsignificand, hnext, if_neg (by simp), unit, unit, place, place, hbiased]
    push_cast
    ring

theorem lower_lt_upper (b : Nat) : lower b < upper b := by
  refine mul_lt_mul_of_pos_right ?_ (unit_pos b)
  split <;> linarith

/-- the interval of a larger magnitude begins at the end of that of a smaller one or behind it, at it for neighbours -/
theorem upper_le_lower (h : b < c) : upper b ≤ lower c ∧ (upper b = lower c → c = b + 1) := by
  induction c, h using Nat.le_induction with
  | base => exact ⟨(upper_eq_lower b).le, fun _ => rfl⟩
  | succ c _ ih =>
    have hlt : upper b < lower (c + 1) := by
      rw [← upper_eq_lower]
      exact ih.1.trans_lt (lower_lt_upper c)
    exact ⟨hlt.le, fun heq => absurd heq hlt.ne⟩

/-! ## Decoded magnitudes -/

theorem powerOfTwo_eq (q : Int) : 0 < (powerOfTwo q).2 ∧ 0 < (powerOfTwo q).1 ∧
    ((powerOfTwo q).1 : ℚ) / (powerOfTwo q).2 = 2 ^ q := by
  unfold powerOfTwo
  split
  · rename_i hq
    have hneg : q = -((-q).toNat : Int) := by omega
    refine ⟨Nat.two_pow_pos _, one_pos, ?_⟩
    conv_rhs => rw [hneg]
    rw [zpow_neg, zpow_natCast]
    simp
  · rename_i hq
    refine ⟨one_pos, Nat.two_pow_pos _, ?_⟩
    conv_rhs => rw [← Int.toNat_of_nonneg (not_lt.1 hq)]
    rw [zpow_natCast]
    simp

/-- a magnitude as the decoder gives it -/
structure Decodes (x : BinaryMagnitude) (b : Nat) : Prop where
  den_pos : 0 < x.den
  /-- the value is the significand at its place -/
  value : (x.num : ℚ) / x.den = significand b * unit b
  low : x.low = lower b
  high : x.high = upper b
  closed : x.closed = true ↔ b % 2 = 0
  below : x.num ≠ 0 → x.below ≤ 4 * x.num

theorem decodes_of_parts {m up down below : Nat} (hup : 0 < up) (hdown : 0 < down)
    (hm : m = significand b) (hunit : (up : ℚ) / down = unit b)
    (hbelow : below = if fraction b = 0 ∧ 1 < biased b then 1 else 2) :
    Decodes ⟨m * up, down, below * up, 2 * up, m % 2 == 0⟩ b where
  den_pos := hdown
  value := by
    rw [← hunit, ← hm]
    push_cast
    ring
  low := by
    have hdown' : (down : ℚ) ≠ 0 := by positivity
    simp only [BinaryMagnitude.low, lower, ← hunit, ← hm, hbelow]
    split
    · push_cast
      field_simp
    · push_cast
      field_simp
      ring
  high := by
    have hdown' : (down : ℚ) ≠ 0 := by positivity
    simp only [BinaryMagnitude.high, upper, ← hunit, ← hm]
    push_cast
    field_simp
    ring
  closed := by rw [beq_iff_eq, hm, significand_mod_two]
  below := by
    intro hnum
    have hpos : 1 ≤ m := Nat.pos_of_ne_zero (left_ne_zero_of_mul hnum)
    have htwo : below ≤ 4 * m := by
      rw [hbelow]
      split <;> omega
    calc below * up ≤ 4 * m * up := Nat.mul_le_mul_right up htwo
      _ = 4 * (m * up) := Nat.mul_assoc 4 m up

/-- a float decodes to the magnitude of its low 63 bits, unless its exponent bits are all ones -/
theorem ofBits?_decodes {bits : Nat} (h : ofBits? bits = some x) : x.Decodes (bits % 0x8000000000000000) := by
  have hfraction : bits % 0x10000000000000 = fraction (bits % 0x8000000000000000) := by
    unfold fraction
    omega
  have hbiased : bits / 0x10000000000000 % 0x800 = biased (bits % 0x8000000000000000) := by
    unfold biased
    omega
  unfold ofBits? at h
  rw [hfraction, hbiased] at h
  dsimp only at h
  split at h
  · cases h
  · obtain ⟨hdown, hup, hunit⟩ := powerOfTwo_eq (place (bits % 0x8000000000000000))
    obtain rfl := Option.some.inj h
    exact decodes_of_parts hup hdown rfl hunit rfl

theorem Decodes.num_eq_zero_iff (h : x.Decodes b) : x.num = 0 ↔ b = 0 := by
  have hden : (x.den : ℚ) ≠ 0 := by exact_mod_cast h.den_pos.ne'
  have hvalue : (x.num : ℚ) = significand b * unit b * x.den := (div_eq_iff hden).1 h.value
  have hzero : x.num = 0 ↔ significand b = 0 := by
    rw [← Nat.cast_eq_zero (R := ℚ), hvalue, mul_eq_zero, mul_eq_zero, Nat.cast_eq_zero]
    simp [hden, (unit_pos b).ne']
  rw [hzero]
  unfold significand fraction biased
  split <;> omega

/-- **A number is in the rounding interval of one magnitude only.** -/
theorem covers_unique (hx : x.Decodes b) (hy : y.Decodes c) (hvx : x.Covers v) (hvy : y.Covers v) : b = c := by
  -- of two different ones, the number is the end of the lower interval and the begin of the higher one
  have hlt : ∀ {x y : BinaryMagnitude} {b c : Nat}, x.Decodes b → y.Decodes c → x.Covers v → y.Covers v → ¬ b < c := by
    intro x y b c hx hy hvx hvy hbc
    obtain ⟨hle, hneighbour⟩ := upper_le_lower hbc
    have hend : v ≤ upper b := hx.high ▸ hvx.ends.2
    have hbegin : lower c ≤ v := hy.low ▸ hvy.ends.1
    have hmeet : upper b = lower c := hle.antisymm (hbegin.trans hend)
    have hevenx : b % 2 = 0 := hx.closed.1 (hvx.closed_of_end (.inr (by rw [hx.high]; linarith)))
    have heveny : c % 2 = 0 := hy.closed.1 (hvy.closed_of_end (.inl (by rw [hy.low]; linarith)))
    have hsucc := hneighbour hmeet
    omega
  rcases Nat.lt_trichotomy b c with h | h | h
  · exact absurd h (hlt hx hy hvx hvy)
  · exact h
  · exact absurd h (hlt hy hx hvy hvx)

end BinaryMagnitude

end MatrixEngine
