/-
The text of a float tells it from all other finite floats.

A laid out decimal spells out that decimal, whichever layout it has (`format_spells`), a text spells out one number
(`Spells.unique`), and the shortest decimal of a float lies in the rounding interval of no other. So finite floats have
different texts, signed zeros included (`floatText_eq_iff`). Infinities and NaN share the text `null`.
-/
import MatrixEngine.Proofs.Number.Shortest
import MatrixEngine.Proofs.Text.Written

namespace MatrixEngine

open Json (WholePart signChars fractionChars exponentChars NumberText)

/-! ## Reading decimals -/

theorem Numeral.digits?_eq {cs : List Char} (hdigits : ∀ c ∈ cs, c.isDigit = true) (hne : cs ≠ []) :
    digits? 10 cs = some (Nat.ofDigitChars 10 cs 0) := by
  have hvalue : ∀ c : Char, c.isDigit = true → digitValue? 10 c = some (c.toNat - '0'.toNat) := by
    intro c hc
    rw [Char.isDigit_iff_toNat] at hc
    have hrange : '0' ≤ c ∧ c ≤ '9' := hc
    have hnine : c.toNat ≤ 57 := hc.2
    have hlt : c.toNat - '0'.toNat < 10 := by
      change c.toNat - 48 < 10
      omega
    rw [digitValue?, if_pos hrange]
    exact Option.filter_some_pos (decide_eq_true hlt)
  have hfold : ∀ (cs : List Char) (n : Nat), (∀ c ∈ cs, c.isDigit = true) →
      cs.foldlM (fun n c => (digitValue? 10 c).map (n * 10 + ·)) n = some (Nat.ofDigitChars 10 cs n) := by
    intro cs
    induction cs with
    | nil => exact fun _ _ => rfl
    | cons c cs ih =>
      intro n h
      rw [List.foldlM_cons, hvalue c (h c List.mem_cons_self), Nat.ofDigitChars_cons, Nat.mul_comm 10 n]
      exact ih _ fun c' hc' => h c' (List.mem_cons_of_mem c hc')
  rw [digits?, if_neg (by simpa using hne), hfold cs 0 hdigits]

theorem Numeral.exponent?_exponentChars (e : Option Int) : exponent? (exponentChars e) = some (e.getD 0) := by
  cases e with
  | none => rfl
  | some k =>
    have hdigits := digits?_eq (fun c (hc : c ∈ Nat.toDigits 10 k.natAbs) => Json.isDigit_of_toDigits hc)
      Nat.toDigits_ne_nil
    rw [Nat.ofDigitChars_ten_toDigits] at hdigits
    rw [exponentChars]
    split_ifs with hk
    · simp only [exponent?, true_or, if_true, hdigits, Option.getD_some]
      exact congrArg some (show -(k.natAbs : Int) = k by omega)
    · simp only [exponent?, true_or, if_true, hdigits, Option.getD_some]
      exact congrArg some (show (k.natAbs : Int) = k by omega)

theorem Numeral.decimal?_parts {whole frac : List Char} (hwhole : WholePart whole)
    (hfrac : ∀ c ∈ frac, c.isDigit = true) (e : Option Int) :
    decimal? (whole ++ fractionChars frac ++ exponentChars e) =
      some ⟨Nat.ofDigitChars 10 (whole ++ frac) 0, e.getD 0 - frac.length⟩ := by
  have hstops : Json.Stops [] := fun c hc => by cases hc
  have hafter := Json.stops_exponentChars hstops e
  rw [List.append_nil] at hafter
  have hdigits := digits?_eq
    (fun c (hc : c ∈ whole ++ frac) => (List.mem_append.1 hc).elim (hwhole.digits c) (hfrac c))
    (by simp [hwhole.nonempty])
  have hparts : spanDigits (whole ++ (fractionChars frac ++ exponentChars e)) =
        (whole, fractionChars frac ++ exponentChars e) ∧
      spanFraction (fractionChars frac ++ exponentChars e) = (frac, exponentChars e) := by
    by_cases hnil : frac = []
    · rw [fractionChars, if_pos hnil, List.nil_append]
      refine ⟨Json.spanDigits_append hwhole.digits fun c hc => (hafter c hc).1, ?_⟩
      rw [hnil]
      cases e <;> rfl
    · rw [fractionChars, if_neg hnil]
      refine ⟨Json.spanDigits_append hwhole.digits ?_, Json.spanDigits_append hfrac fun c hc => (hafter c hc).1⟩
      rintro _ ⟨⟩
      rfl
  rw [List.append_assoc]
  unfold decimal?
  rw [hparts.1]
  dsimp only
  rw [hparts.2]
  dsimp only
  rw [if_neg (by simp [hwhole.nonempty]), exponent?_exponentChars, hdigits]
  rfl

/-! ## Laid out decimals -/

/-- characters that are the parts of a decimal text, and the number that they spell out -/
def Spells (cs : List Char) (v : ℚ) : Prop :=
  ∃ whole frac e, cs = whole ++ fractionChars frac ++ exponentChars e ∧ WholePart whole ∧
    (∀ c ∈ frac, c.isDigit = true) ∧
    Decimal.value ⟨Nat.ofDigitChars 10 (whole ++ frac) 0, e.getD 0 - frac.length⟩ = v

/-- characters spell out one number, the one that is read -/
theorem Spells.unique {cs : List Char} {v w : ℚ} (hv : Spells cs v) (hw : Spells cs w) : v = w := by
  obtain ⟨whole, frac, e, rfl, hwhole, hfrac, rfl⟩ := hv
  obtain ⟨whole', frac', e', hcs, hwhole', hfrac', rfl⟩ := hw
  have hread := Numeral.decimal?_parts hwhole hfrac e
  rw [hcs, Numeral.decimal?_parts hwhole' hfrac' e'] at hread
  rw [Option.some.inj hread]

theorem Spells.head {cs : List Char} {v : ℚ} (h : Spells cs v) : cs.head? ≠ some '-' := by
  obtain ⟨whole, frac, e, rfl, hwhole, -⟩ := h
  obtain ⟨c, ds, rfl⟩ := List.exists_cons_of_ne_nil hwhole.nonempty
  rintro ⟨⟩
  cases hwhole.digits '-' List.mem_cons_self

/-- the digits of a positive number -/
structure Leading (ds : List Char) (n : Nat) : Prop where
  whole : WholePart ds
  head : ds.head? ≠ some '0'
  value : Nat.ofDigitChars 10 ds 0 = n

theorem leading_toDigits {n : Nat} (hn : 0 < n) : Leading (Nat.toDigits 10 n) n :=
  ⟨Json.wholePart_toDigits n, Json.head?_toDigits hn, Nat.ofDigitChars_ten_toDigits⟩

theorem isDigit_of_replicate {n : Nat} {c : Char} (h : c ∈ List.replicate n '0') : c.isDigit = true := by
  rw [List.eq_of_mem_replicate h]
  rfl

theorem isDigit_zero : ∀ c ∈ ['0'], c.isDigit = true := fun _ h => isDigit_of_replicate (n := 1) h

theorem wholePart_zero : WholePart ['0'] := Json.wholePart_toDigits 0

namespace Decimal

variable {d : Decimal} {ds : List Char}

/-- digits and what they stand for, with the places behind the point -/
theorem value_of_digits {e : Int} {k : Nat} (hdigits : Nat.ofDigitChars 10 ds 0 = 10 ^ k * d.coefficient)
    (he : e + k = d.exponent) : value ⟨Nat.ofDigitChars 10 ds 0, e⟩ = d.value := by
  rw [value, value, hdigits, ← he, zpow_add₀ (by norm_num), zpow_natCast]
  push_cast
  ring

/-- digits that are cut behind the first `k`, with the exponent that makes up for the point -/
theorem spells_cut (h : Leading ds d.coefficient) {k : Nat} (hk : 0 < k) {e : Option Int}
    (he : e.getD 0 - (ds.length - k : Nat) = d.exponent) :
    Spells (ds.take k ++ fractionChars (ds.drop k) ++ exponentChars e) d.value := by
  refine ⟨ds.take k, ds.drop k, e, rfl, ⟨fun c hc => h.whole.digits c (List.mem_of_mem_take hc), ?_, fun hhead => ?_⟩,
    fun c hc => h.whole.digits c (List.mem_of_mem_drop hc), value_of_digits (k := 0) ?_ ?_⟩
  · rw [ne_eq, List.take_eq_nil_iff]
    exact not_or.2 ⟨by omega, h.whole.nonempty⟩
  · rw [List.head?_take, if_neg (by omega)] at hhead
    exact absurd hhead h.head
  · rw [List.take_append_drop, h.value, pow_zero, one_mul]
  · rw [List.length_drop, he]
    exact Int.add_zero _

/-- digits with zeros behind them, a point and a zero -/
theorem spells_integer (h : Leading ds d.coefficient) (he : 0 ≤ d.exponent) :
    Spells (ds ++ List.replicate d.exponent.toNat '0' ++ fractionChars ['0'] ++ exponentChars none) d.value := by
  refine ⟨ds ++ List.replicate d.exponent.toNat '0', ['0'], none, rfl, ⟨fun c hc => ?_, ?_, fun hhead => ?_⟩,
    isDigit_zero, value_of_digits (k := d.exponent.toNat + 1) ?_ ?_⟩
  · exact (List.mem_append.1 hc).elim (h.whole.digits c) isDigit_of_replicate
  · simp [h.whole.nonempty]
  · rw [List.head?_append_of_ne_nil _ h.whole.nonempty] at hhead
    exact absurd hhead h.head
  · rw [Nat.ofDigitChars_append, Nat.ofDigitChars_append, h.value, Nat.ofDigitChars_replicate_zero, pow_succ]
    simp [Nat.ofDigitChars_cons]
    ring
  · simp
    omega

/-- a zero, a point, and zeros in front of the digits -/
theorem spells_fraction (h : Leading ds d.coefficient) {k : Nat} (he : -((k + ds.length : Nat) : Int) = d.exponent) :
    Spells (['0'] ++ fractionChars (List.replicate k '0' ++ ds) ++ exponentChars none) d.value := by
  refine ⟨['0'], List.replicate k '0' ++ ds, none, rfl, wholePart_zero, fun c hc => ?_,
    value_of_digits (k := 0) ?_ ?_⟩
  · exact (List.mem_append.1 hc).elim isDigit_of_replicate (h.whole.digits c)
  · rw [Nat.ofDigitChars_append, Nat.ofDigitChars_append, Nat.ofDigitChars_replicate_zero]
    simpa [Nat.ofDigitChars_cons] using h.value
  · rw [List.length_append, List.length_replicate, ← he]
    simp

theorem toList_zeroDigits (n : Int) : (zeroDigits n).toList = List.replicate n.toNat '0' := String.toList_ofList

/-- **A laid out decimal spells out the decimal**, whichever layout it has. -/
theorem format_spells (l : Layout) (hd : d.coefficient ≠ 0) : Spells (format l d).toList d.value := by
  have h := leading_toDigits (Nat.pos_of_ne_zero hd)
  unfold format
  generalize Nat.toDigits 10 d.coefficient = ds at h
  have hlength : 0 < ds.length := List.length_pos_of_ne_nil h.whole.nonempty
  dsimp only
  by_cases hrange : l.low ≤ d.exponent + ds.length - 1 ∧ d.exponent + ds.length - 1 ≤ l.high
  · rw [if_pos hrange]
    split_ifs with hinteger hpoint
    · simpa [toList_zeroDigits, fractionChars, exponentChars] using spells_integer h hinteger
    · have hcut := spells_cut h (k := (d.exponent + ds.length - 1 + 1).toNat) (by omega) (e := none) (by simp; omega)
      rw [fractionChars, if_neg (by rw [List.drop_eq_nil_iff]; omega)] at hcut
      simpa [exponentChars] using hcut
    · have hfraction := spells_fraction h (k := (-(d.exponent + ds.length - 1) - 1).toNat) (by omega)
      simpa [toList_zeroDigits, fractionChars, exponentChars, h.whole.nonempty] using hfraction
  · rw [if_neg hrange]
    have htail : (if ds.length ≤ 1 then "" else "." ++ String.ofList (ds.drop 1)).toList =
        fractionChars (ds.drop 1) := by
      by_cases hone : ds.length ≤ 1
      · rw [if_pos hone, fractionChars, if_pos (List.drop_eq_nil_iff.2 hone)]
        rfl
      · rw [if_neg hone, fractionChars, if_neg (mt List.drop_eq_nil_iff.1 hone)]
        simp
    have hexponent : ∀ k : Int, ("e" ++ (if k < 0 then "-" else "+") ++ toString k.natAbs).toList =
        exponentChars (some k) := by
      intro k
      rw [exponentChars, Nat.toString_eq_ofList_toDigits]
      split_ifs <;> simp
    have hcut := spells_cut h one_pos (e := some (d.exponent + ds.length - 1)) (by simp; omega)
    rw [← htail, ← hexponent] at hcut
    simpa using hcut

end Decimal

/-! ## Magnitudes -/

namespace BinaryMagnitude

variable {x y : BinaryMagnitude} {b c : Nat}

def text (x : BinaryMagnitude) : String :=
  if x.num = 0 then "0.0" else (Decimal.shortest x).format documentLayout

/-- the text of a magnitude spells out a number in its rounding interval -/
theorem text_spells (hx : x.Decodes b) : ∃ v, Spells x.text.toList v ∧ x.Covers v := by
  unfold text
  split_ifs with hnum
  · have hzero :
        Decimal.value ⟨Nat.ofDigitChars 10 (['0'] ++ ['0']) 0, (none : Option Int).getD 0 - ['0'].length⟩ = 0 := by
      simp [Decimal.value, Nat.ofDigitChars_cons]
    refine ⟨0, ⟨['0'], ['0'], none, rfl, wholePart_zero, isDigit_zero, hzero⟩, ?_⟩
    obtain rfl := hx.num_eq_zero_iff.1 hnum
    have hunit := unit_pos 0
    have hlow : x.low ≤ 0 := by
      rw [hx.low]
      simp only [lower, significand, biased, fraction]
      norm_num
      exact hunit.le
    have hhigh : 0 ≤ x.high := by
      rw [hx.high]
      simp only [upper, significand, biased, fraction]
      norm_num
      exact hunit.le
    rw [Covers, if_pos (hx.closed.2 rfl)]
    exact ⟨hlow, hhigh⟩
  · obtain ⟨hcovers, hcoefficient⟩ := Decimal.shortest_covers hx hnum
    exact ⟨_, Decimal.format_spells documentLayout hcoefficient, hcovers⟩

/-- **Magnitudes with one text are the same.** -/
theorem text_inj (hx : x.Decodes b) (hy : y.Decodes c) (h : x.text = y.text) : b = c := by
  obtain ⟨v, hv, hcovers⟩ := text_spells hx
  obtain ⟨w, hw, hcovers'⟩ := text_spells hy
  obtain rfl := hv.unique (h ▸ hw)
  exact covers_unique hx hy hcovers hcovers'

theorem text_head (hx : x.Decodes b) : x.text.toList.head? ≠ some '-' := by
  obtain ⟨v, hv, -⟩ := text_spells hx
  exact hv.head

end BinaryMagnitude

/-! ## Floats -/

open Float.Model (Format)
open Float.Model.UnpackedFloat (unpackExponent unpackMantissa packedNaN)

variable {v w : Float}

theorem unpackExponent_eq (b : BitVec 64) :
    @unpackExponent Format.binary64 b = -1#_ ↔ b.toNat / 0x10000000000000 % 0x800 = 2047 := by
  have htoNat : (@unpackExponent Format.binary64 b).toNat = b.toNat / 0x10000000000000 % 0x800 := by
    simp [unpackExponent, BitVec.extractLsb, BitVec.extractLsb'_toNat, Nat.shiftRight_eq_div_pow]
  rw [← BitVec.toNat_inj, htoNat]
  rfl

theorem isFinite_unpack (b : BitVec 64) : (Float.Model.UnpackedFloat.unpack Format.binary64 b).isFinite = true ↔
    @unpackExponent Format.binary64 b ≠ -1#_ := by
  unfold Float.Model.UnpackedFloat.unpack
  dsimp only
  by_cases hones : @unpackExponent Format.binary64 b = -1#_
  · refine iff_of_false ?_ fun h => h hones
    rw [if_pos hones]
    by_cases hmantissa : @unpackMantissa Format.binary64 b = 0#_
    · rw [if_pos hmantissa]
      exact Bool.false_ne_true
    · rw [if_neg hmantissa]
      exact Bool.false_ne_true
  · refine iff_of_true ?_ hones
    rw [if_neg hones]
    by_cases hzeros : @unpackExponent Format.binary64 b = 0#_
    · rw [if_pos hzeros]
      by_cases hmantissa : @unpackMantissa Format.binary64 b = 0#_
      · rw [dif_pos hmantissa]
        rfl
      · rw [dif_neg hmantissa]
        rfl
    · rw [if_neg hzeros]
      rfl

theorem isFinite_iff : v.isFinite = true ↔ v.toBits.toNat / 0x10000000000000 % 0x800 ≠ 2047 := by
  have hunpack : v.isFinite = (Float.Model.UnpackedFloat.unpack Format.binary64 v.toBits.toBitVec).isFinite := rfl
  have htoNat : v.toBits.toNat = v.toBits.toBitVec.toNat := rfl
  rw [hunpack, htoNat, ne_eq, ← unpackExponent_eq]
  exact isFinite_unpack v.toBits.toBitVec

theorem float_ext (h : v.toBits = w.toBits) : v = w := by
  obtain ⟨⟨bits, _⟩⟩ := v
  obtain ⟨⟨bits', _⟩⟩ := w
  obtain rfl : bits = bits' := h
  rfl

/-- there is one NaN: floats that are neither finite nor infinite are the same -/
theorem eq_of_nan (hv : v.isFinite = false) (hv' : v.isInf = false) (hw : w.isFinite = false) (hw' : w.isInf = false) :
    v = w := by
  have hnan : ∀ {v : Float}, v.isFinite = false → v.isInf = false → v.toBits.toBitVec = packedNaN Format.binary64 := by
    intro v hfinite hinf
    have hexponent : @unpackExponent Format.binary64 v.toBits.toBitVec = -1#_ := by
      rw [unpackExponent_eq]
      by_contra hne
      rw [isFinite_iff.2 hne] at hfinite
      cases hfinite
    refine v.toModel.valid.eq_packedNaN hexponent fun hmantissa => ?_
    have hzero : @unpackMantissa Format.binary64 v.toBits.toBitVec = 0#52 := hmantissa
    have hunpack : v.isInf = (Float.Model.UnpackedFloat.unpack Format.binary64 v.toBits.toBitVec).isInf := rfl
    rw [hunpack] at hinf
    unfold Float.Model.UnpackedFloat.unpack at hinf
    dsimp only at hinf
    rw [if_pos hexponent, if_pos hzero] at hinf
    cases hinf
  exact float_ext (UInt64.toBitVec_inj.1 ((hnan hv hv').trans (hnan hw hw').symm))

theorem ofBits?_of_finite (h : v.isFinite = true) : ∃ x, BinaryMagnitude.ofBits? v.toBits.toNat = some x := by
  unfold BinaryMagnitude.ofBits?
  dsimp only
  rw [if_neg (isFinite_iff.1 h)]
  exact ⟨_, rfl⟩

theorem floatText_of_not_finite (h : v.isFinite = false) : floatText v = "null" := by
  have hones : v.toBits.toNat / 0x10000000000000 % 0x800 = 2047 := by
    by_contra hne
    rw [isFinite_iff.2 hne] at h
    cases h
  have hnone : BinaryMagnitude.ofBits? v.toBits.toNat = none := by
    unfold BinaryMagnitude.ofBits?
    dsimp only
    rw [if_pos hones]
  unfold floatText
  dsimp only
  rw [hnone]

def isNegative (v : Float) : Bool := decide (v.toBits.toNat / 0x8000000000000000 = 1)

/-- the characters of a finite float: a sign if its first bit is set, and the text of its magnitude -/
theorem toList_floatText {x : BinaryMagnitude} (h : BinaryMagnitude.ofBits? v.toBits.toNat = some x) :
    (floatText v).toList = signChars (isNegative v) ++ x.text.toList := by
  unfold floatText BinaryMagnitude.text signChars isNegative
  dsimp only
  rw [h]
  dsimp only
  split_ifs <;> simp_all

theorem numberText_floatText (h : v.isFinite = true) : NumberText (floatText v) := by
  obtain ⟨x, hx⟩ := ofBits?_of_finite h
  obtain ⟨_, ⟨whole, frac, e, htext, hwhole, hfrac, -⟩, -⟩ :=
    BinaryMagnitude.text_spells (BinaryMagnitude.ofBits?_decodes hx)
  exact Json.numberText_of_parts ((toList_floatText hx).trans (by rw [htext])) hwhole hfrac

/-- **Finite floats have different texts**, signed zeros included; infinities and NaN have one text. -/
theorem floatText_eq_iff : floatText v = floatText w ↔ v = w ∨ v.isFinite = false ∧ w.isFinite = false := by
  constructor
  · intro h
    cases hv : v.isFinite <;> cases hw : w.isFinite
    · exact .inr ⟨rfl, rfl⟩
    · exact absurd (h.symm.trans (floatText_of_not_finite hv)) (numberText_floatText hw).ne_null
    · exact absurd (h.trans (floatText_of_not_finite hw)) (numberText_floatText hv).ne_null
    · obtain ⟨x, hx⟩ := ofBits?_of_finite hv
      obtain ⟨y, hy⟩ := ofBits?_of_finite hw
      have hdx := BinaryMagnitude.ofBits?_decodes hx
      have hdy := BinaryMagnitude.ofBits?_decodes hy
      have hchars : (floatText v).toList = (floatText w).toList := congrArg _ h
      rw [toList_floatText hx, toList_floatText hy] at hchars
      have hsign : isNegative v = isNegative w ∧ x.text = y.text := by
        have hheadx := BinaryMagnitude.text_head hdx
        have hheady := BinaryMagnitude.text_head hdy
        rw [← String.toList_inj]
        cases hsv : isNegative v <;> cases hsw : isNegative w <;>
          simp only [hsv, hsw, signChars, Bool.false_eq_true, if_true, if_false, List.nil_append] at hchars
        · exact ⟨rfl, hchars⟩
        · exact absurd (congrArg List.head? hchars) hheadx
        · exact absurd (congrArg List.head? hchars).symm hheady
        · exact ⟨rfl, List.append_cancel_left hchars⟩
      have hbit := decide_eq_decide.1 hsign.1
      have hlow := BinaryMagnitude.text_inj hdx hdy hsign.2
      have hv64 := v.toBits.toNat_lt
      have hw64 := w.toBits.toNat_lt
      refine .inl (float_ext (UInt64.toNat_inj.1 ?_))
      omega
  · rintro (rfl | ⟨hv, hw⟩)
    · rfl
    · rw [floatText_of_not_finite hv, floatText_of_not_finite hw]

end MatrixEngine
