/-
Zeros of either sign in sums and products.

Zeros may be left out of a sum if adding one changes no number but, at most, the sign of another zero, and if a sum that
no zero changes stays one whatever else is added (`NeutralZeros`). Floats are such numbers. Their sums and products are
worked out on their parts, rounded to a mantissa and an exponent of the format, and packed into bits. Every float has an
exponent of the format, so a sum that is not zero is not rounded to zero (`round_finite`), and packing does not make it
one (`unpack_pack_eq_zero`): only negative zeros add up to the negative zero, the one number that a zero changes.
- `sum_filter_nonZero`: the numbers that are not zero have the sum of all of them, up to the sign of a zero.
- `ofModel_pack_parts`: the parts of a float tell the float.
- `absorbs_iff`, `absorbs_add`: no zero changes a number that is not the negative zero, and sums that begin with such a
  number are no negative zeros.
- `zero_mul_eq_iff`: a zero times a number is the positive zero exactly if the number is finite and has the same sign.
-/
import MatrixEngine.Proofs.Block.Grid
import MatrixEngine.Proofs.Number.FloatText

namespace MatrixEngine

open Cell
open Float.Model (Format UnpackedFloat totalExponent)
open Float.Model.UnpackedFloat (Sign Accuracy ExtendedMantissa unpackExponent unpackMantissa unpackSign packComponents
  packedNaN)

/-! ## Sums without zeros -/

section Sums

variable {α : Type} [Cell α]

/-- a number that no zero changes when it is added -/
def Absorbs (c : α) : Prop := ∀ z, isZero z = true → c + z = c

/-- numbers of which a zero changes no other by being added but, at most, the sign of a zero -/
class NeutralZeros (α : Type) [Cell α] : Prop where
  zero_add : ∀ {z v : α}, isZero z = true → isNonZero v = true → z + v = v
  isZero_add : ∀ {x y : α}, isZero x = true → isZero y = true → isZero (x + y) = true
  absorbs_zero : Absorbs (zero : α)
  absorbs_of_nonZero : ∀ {v : α}, isNonZero v = true → Absorbs v
  absorbs_add : ∀ {c : α}, Absorbs c → ∀ v, Absorbs (c + v)

theorem Absorbs.add_eq {c x y : α} (hc : Absorbs c) (h : SameNumber x y) : c + x = c + y := by
  rcases h with rfl | ⟨hx, hy⟩
  · rfl
  · rw [hc x hx, hc y hy]

/-- **The numbers that are not zero have the sum of all of them**, up to the sign of a zero. -/
theorem sum_filter_nonZero [NeutralZeros α] (vs : List α) :
    SameNumber (Cell.sum (vs.filter isNonZero)) (Cell.sum vs) := by
  have hfold : ∀ x y : α, SameNumber x y →
      SameNumber ((vs.filter isNonZero).foldl (· + ·) x) (vs.foldl (· + ·) y) := by
    induction vs with
    | nil => exact fun _ _ h => h
    | cons v vs ih =>
      intro x y h
      rw [List.filter_cons, List.foldl_cons]
      split_ifs with hv
      · refine ih _ _ (Or.inl ?_)
        rcases h with rfl | ⟨hx, hy⟩
        · rfl
        · exact (NeutralZeros.zero_add hx hv).trans (NeutralZeros.zero_add hy hv).symm
      · -- the zero is left out of one sum and changes no more than the sign of a zero in the other
        have hzero : isZero v = true := by simpa [isNonZero] using hv
        refine ih _ _ (h.trans ?_)
        cases hy : isZero y with
        | true => exact Or.inr ⟨hy, NeutralZeros.isZero_add hy hzero⟩
        | false =>
          have hnonzero : isNonZero y = true := by rw [isNonZero, hy, Bool.not_false]
          exact Or.inl (NeutralZeros.absorbs_of_nonZero hnonzero v hzero).symm
  exact hfold _ _ (.refl _)

end Sums

variable {a b c v z : Float}

/-! ## Bits and parts -/

namespace Binary64

variable {s : Sign} {m : Nat} {e : Int}

theorem unpackSign_eq (b : BitVec Format.binary64.numBits) : unpackSign b = b.extractLsb' 63 1 := rfl

theorem packComponents_unpack (b : BitVec Format.binary64.numBits) :
    packComponents Format.binary64 (.ofBitVec (unpackSign b)) (unpackExponent b) (unpackMantissa b) = b := by
  have hsign : ∀ s : BitVec 1, (Sign.ofBitVec s).toBitVec = s := by decide
  simp only [packComponents, hsign, unpackSign_eq, unpackExponent, unpackMantissa, BitVec.extractLsb]
  ext i hi
  grind

/-- the exponent of a finite number as it is stored -/
theorem biased_eq (e : Int) :
    (e + Format.binary64.exponentBias + Format.binary64.mantissaBitsWithoutImplicit).toNat = (e + 1075).toNat := by
  have hbias : (Format.binary64.exponentBias : Int) = 1023 := rfl
  have hbits : (Format.binary64.mantissaBitsWithoutImplicit : Int) = 52 := rfl
  rw [hbias, hbits]
  omega

/-- numbers beyond the greatest exponent are packed to infinities -/
theorem pack_beyond (hpos : 0 < m) (he : 972 ≤ e) :
    UnpackedFloat.pack Format.binary64 (.finite s m e hpos) = UnpackedFloat.packedInfinity Format.binary64 s := by
  unfold UnpackedFloat.pack
  dsimp only
  rw [biased_eq, if_pos (by omega)]

/-- a short mantissa is packed without an exponent -/
theorem pack_short (hpos : 0 < m) (hm : m < 2 ^ 52) (he : e < 972) :
    UnpackedFloat.pack Format.binary64 (.finite s m e hpos) = packComponents Format.binary64 s 0 (.ofNat 52 m) := by
  have hlog : m.log2 < 52 := (Nat.log2_lt hpos.ne').2 hm
  have hbits : m.log2 + 1 ≠ Format.binary64.mantissaBits := by
    rw [show Format.binary64.mantissaBits = 53 from rfl]
    omega
  unfold UnpackedFloat.pack
  dsimp only
  rw [biased_eq, if_neg (by omega), if_neg hbits]
  rfl

/-- a full mantissa is packed without its first bit -/
theorem pack_full (hpos : 0 < m) (hlow : 2 ^ 52 ≤ m) (hhigh : m < 2 ^ 53) (he : e < 972) :
    UnpackedFloat.pack Format.binary64 (.finite s m e hpos) =
      packComponents Format.binary64 s (.ofNat 11 (e + 1075).toNat) (.ofNat 52 m) := by
  have hlog : m.log2 = 52 := (Nat.log2_eq_iff hpos.ne').2 ⟨hlow, hhigh⟩
  have hbits : m.log2 + 1 = Format.binary64.mantissaBits := by
    rw [hlog]
    rfl
  unfold UnpackedFloat.pack
  dsimp only
  rw [biased_eq, if_neg (by omega), if_pos hbits]

/-- a finite number has a mantissa of at most 53 bits and an exponent that is not below the least one -/
def InFormat : UnpackedFloat → Prop
  | .finite _ m e _ => m < 2 ^ 53 ∧ -1074 ≤ e
  | _ => True

/-- what bits are unpacked to, by their exponent and mantissa -/
inductive Unpacked (b : BitVec Format.binary64.numBits) : UnpackedFloat → Prop
  | infinity (hexponent : unpackExponent b = -1#_) (hmantissa : unpackMantissa b = 0#_) :
      Unpacked b (.infinity (.ofBitVec (unpackSign b)))
  | notANumber (hexponent : unpackExponent b = -1#_) (hmantissa : unpackMantissa b ≠ 0#_) : Unpacked b .notANumber
  | zero (hexponent : unpackExponent b = 0#_) (hmantissa : unpackMantissa b = 0#_) :
      Unpacked b (.zero (.ofBitVec (unpackSign b)))
  | short (hexponent : unpackExponent b = 0#_) (hpos : 0 < (unpackMantissa b).toNat) :
      Unpacked b (.finite (.ofBitVec (unpackSign b)) (unpackMantissa b).toNat (-1074) hpos)
  | full {m : Nat} (hinfinite : unpackExponent b ≠ -1#_) (hexponent : unpackExponent b ≠ 0#_)
      (hm : m = 2 ^ 52 + (unpackMantissa b).toNat) (hpos : 0 < m) :
      Unpacked b (.finite (.ofBitVec (unpackSign b)) m ((unpackExponent b).toNat - 1075) hpos)

theorem unpacked (b : BitVec Format.binary64.numBits) : Unpacked b (.unpack Format.binary64 b) := by
  have hbias : ((Format.binary64.exponentBias : Nat) + (Format.binary64.mantissaBitsWithoutImplicit : Nat) : Int) =
    1075 := rfl
  have happend : (1#1 ++ unpackMantissa b).toNat = 2 ^ 52 + (unpackMantissa b).toNat := by
    rw [BitVec.toNat_append, ← Nat.shiftLeft_add_eq_or_of_lt (unpackMantissa b).isLt]
    rfl
  have hleast : unpackExponent b = 0#_ → ((unpackExponent b).toNat : Int) - 1075 + 1 = -1074 := fun h => by
    rw [h]
    rfl
  unfold UnpackedFloat.unpack
  dsimp only
  rw [hbias]
  by_cases hones : unpackExponent b = -1#_
  · rw [if_pos hones]
    by_cases hzero : unpackMantissa b = 0#_
    · rw [if_pos hzero]
      exact .infinity hones hzero
    · rw [if_neg hzero]
      exact .notANumber hones hzero
  rw [if_neg hones]
  by_cases hnone : unpackExponent b = 0#_
  · rw [if_pos hnone]
    by_cases hzero : unpackMantissa b = 0#_
    · rw [dif_pos hzero]
      exact .zero hnone hzero
    · rw [dif_neg hzero, hleast hnone]
      exact .short hnone _
  · rw [if_neg hnone]
    exact .full hones hnone happend _

/-- **Packing undoes unpacking**, and what is unpacked is of the format. -/
theorem pack_unpack {b : BitVec Format.binary64.numBits} (hb : Format.binary64.Valid b) :
    UnpackedFloat.pack Format.binary64 (.unpack Format.binary64 b) = b ∧ InFormat (.unpack Format.binary64 b) := by
  have hcomponents := packComponents_unpack b
  have hlt : (unpackMantissa b).toNat < 2 ^ 52 := (unpackMantissa b).isLt
  have hround : ∀ {w : Nat} (x : BitVec w), BitVec.ofNat w x.toNat = x := fun x => by
    rw [BitVec.ofNat_toNat, BitVec.setWidth_eq]
  have hcases := unpacked b
  generalize UnpackedFloat.unpack Format.binary64 b = u at hcases
  cases hcases with
  | infinity hexponent hmantissa =>
    rw [hexponent, hmantissa] at hcomponents
    exact ⟨hcomponents, trivial⟩
  | notANumber hexponent hmantissa => exact ⟨(hb.eq_packedNaN hexponent hmantissa).symm, trivial⟩
  | zero hexponent hmantissa =>
    rw [hexponent, hmantissa] at hcomponents
    exact ⟨hcomponents, trivial⟩
  | short hexponent hpos =>
    rw [hexponent] at hcomponents
    refine ⟨?_, hlt.trans (by decide), le_rfl⟩
    rw [pack_short _ hlt (by decide), hround]
    exact hcomponents
  | @full m hinfinite hexponent hm hpos =>
    have hbound : (unpackExponent b).toNat < 2048 := (unpackExponent b).isLt
    have hmost : (unpackExponent b).toNat ≠ 2047 := fun h => hinfinite (BitVec.eq_of_toNat_eq h)
    have hleast : (unpackExponent b).toNat ≠ 0 := fun h => hexponent (BitVec.eq_of_toNat_eq h)
    have hlow : BitVec.ofNat 52 m = unpackMantissa b := by
      refine BitVec.eq_of_toNat_eq ?_
      rw [BitVec.toNat_ofNat]
      omega
    refine ⟨?_, by omega, by omega⟩
    rw [pack_full _ (by omega) (by omega) (by omega), Int.sub_add_cancel, Int.toNat_natCast, hround, hlow]
    exact hcomponents

/-! ### Rounding -/

theorem targetExponent_eq (t : Int) : Format.binary64.targetExponent t = max (t - 53) (-1074) := rfl

theorem mantissa_shiftRight (x : ExtendedMantissa) (k : Nat) : (x >>> k).mantissa = x.mantissa / 2 ^ k := by
  induction k with
  | zero => exact (Nat.div_one _).symm
  | succ k ih =>
    have hstep : (x >>> (k + 1)).mantissa = (x >>> k).mantissa / 2 := rfl
    rw [hstep, ih, Nat.div_div_eq_div_mul, Nat.pow_succ]

theorem mantissa_ofMantissaAndAccuracy (m : Nat) (acc : Accuracy) :
    (ExtendedMantissa.ofMantissaAndAccuracy m acc).mantissa = m := by
  rcases acc with - | (_ | _ | _) <;> rfl

/-- rounding goes down by cutting bits off only -/
theorem le_roundedMantissa (x : ExtendedMantissa) : x.mantissa ≤ x.roundedMantissa := by
  obtain ⟨m, r, t⟩ := x
  cases r <;> cases t
  · exact le_rfl
  · exact le_rfl
  · exact Nat.le_add_right _ _
  · exact Nat.le_succ _

/-- cutting a mantissa to the exponent that the format asks for keeps its first bit, and at most 53 bits -/
theorem shiftToTargetExponent_bounds (hm : 0 < m) (he : -1074 ≤ e) (acc : Accuracy) :
    0 < (UnpackedFloat.shiftToTargetExponent Format.binary64 m e acc).1.mantissa ∧
      (UnpackedFloat.shiftToTargetExponent Format.binary64 m e acc).1.mantissa < 2 ^ 53 ∧
      -1074 ≤ (UnpackedFloat.shiftToTargetExponent Format.binary64 m e acc).2 := by
  have hlow := Nat.log2_self_le hm.ne'
  have hhigh := Nat.lt_log2_self (n := m)
  unfold UnpackedFloat.shiftToTargetExponent UnpackedFloat.shiftToExponent
  dsimp only
  rw [mantissa_shiftRight, mantissa_ofMantissaAndAccuracy, targetExponent_eq, totalExponent]
  generalize m.log2 = l at hlow hhigh
  refine ⟨?_, ?_, by omega⟩
  · refine Nat.div_pos (le_trans ?_ hlow) (Nat.two_pow_pos _)
    exact Nat.pow_le_pow_right two_pos (by omega)
  · rw [Nat.div_lt_iff_lt_mul (Nat.two_pow_pos _), ← Nat.pow_add]
    exact hhigh.trans_le (Nat.pow_le_pow_right two_pos (by omega))

/-- **A mantissa that is not zero is not rounded to zero**, if its exponent is not below the least one. -/
theorem roundWithAccuracy_finite (s : Sign) (hm : 0 < m) (he : -1074 ≤ e) (acc : Accuracy) :
    ∃ m' e' hpos, UnpackedFloat.roundWithAccuracy Format.binary64 s m e acc = .finite s m' e' hpos ∧
      m' < 2 ^ 53 ∧ -1074 ≤ e' := by
  obtain ⟨hpos, -, hexponent⟩ := shiftToTargetExponent_bounds hm he acc
  unfold UnpackedFloat.roundWithAccuracy
  generalize UnpackedFloat.shiftToTargetExponent Format.binary64 m e acc = cut at hpos hexponent
  obtain ⟨hpos', hlt', hexponent'⟩ :=
    shiftToTargetExponent_bounds (hpos.trans_le (le_roundedMantissa cut.1)) hexponent .exact
  exact ⟨_, _, hpos', dif_neg hpos'.ne', hlt', hexponent'⟩

theorem round_finite (s : Sign) (hm : 0 < m) (he : -1074 ≤ e) :
    ∃ m' e' hpos, UnpackedFloat.round Format.binary64 s m e = .finite s m' e' hpos ∧ m' < 2 ^ 53 ∧ -1074 ≤ e' := by
  unfold UnpackedFloat.round UnpackedFloat.decreaseExponent
  refine roundWithAccuracy_finite s ?_ ?_ .exact
  · rw [Nat.shiftLeft_eq]
    exact Nat.mul_pos hm (Nat.two_pow_pos _)
  · rw [targetExponent_eq]
    omega

/-- a mantissa with a sign is rounded to a number of the format, which is no negative zero -/
theorem normalize_inFormat (n : Int) (he : -1074 ≤ e) :
    InFormat (.normalize Format.binary64 n e .positive) ∧
      UnpackedFloat.normalize Format.binary64 n e .positive ≠ .zero .negative := by
  unfold UnpackedFloat.normalize
  cases hn : compare n 0 with
  | eq => exact ⟨trivial, by rintro ⟨⟩⟩
  | lt =>
    have hneg := Int.compare_eq_lt.1 hn
    obtain ⟨m', e', hpos, hround, hbounds⟩ := round_finite .negative (m := (-n).toNat) (by omega) he
    dsimp only
    rw [hround]
    exact ⟨hbounds, by rintro ⟨⟩⟩
  | gt =>
    have hgt := Int.compare_eq_gt.1 hn
    obtain ⟨m', e', hpos, hround, hbounds⟩ := round_finite .positive (m := n.toNat) (by omega) he
    dsimp only
    rw [hround]
    exact ⟨hbounds, by rintro ⟨⟩⟩

/-- **A sum is of the format, and no negative zero if the first number is none.** -/
theorem add_inFormat {u w : UnpackedFloat} (hu : InFormat u) (hw : InFormat w) :
    InFormat (.add Format.binary64 u w) ∧
      (u ≠ .zero .negative → UnpackedFloat.add Format.binary64 u w ≠ .zero .negative) := by
  cases u with
  | notANumber => exact ⟨trivial, fun _ => by rintro ⟨⟩⟩
  | infinity s =>
    cases w with
    | infinity s' => cases s <;> cases s' <;> exact ⟨trivial, fun _ => by rintro ⟨⟩⟩
    | _ => exact ⟨trivial, fun _ => by rintro ⟨⟩⟩
  | zero s =>
    cases w with
    | zero s' => cases s <;> cases s' <;> exact ⟨trivial, fun h => by first | exact h | rintro ⟨⟩⟩
    | finite => exact ⟨hw, fun _ => by rintro ⟨⟩⟩
    | _ => exact ⟨trivial, fun _ => by rintro ⟨⟩⟩
  | finite s m e =>
    cases w with
    | zero => exact ⟨hu, fun _ => by rintro ⟨⟩⟩
    | finite s' m' e' =>
      obtain ⟨hformat, hne⟩ := normalize_inFormat _ (le_min hu.2 hw.2)
      exact ⟨hformat, fun _ => hne⟩
    | _ => exact ⟨trivial, fun _ => by rintro ⟨⟩⟩

/-- only bits without an exponent and a mantissa are a zero -/
theorem unpack_eq_zero {b : BitVec Format.binary64.numBits}
    (h : UnpackedFloat.unpack Format.binary64 b = .zero s) : unpackExponent b = 0#_ ∧ unpackMantissa b = 0#_ := by
  have hcases := unpacked b
  rw [h] at hcases
  cases hcases with
  | zero hexponent hmantissa => exact ⟨hexponent, hmantissa⟩

theorem unpack_pack_eq_zero {u : UnpackedFloat} (hu : InFormat u)
    (h : UnpackedFloat.unpack Format.binary64 (UnpackedFloat.pack Format.binary64 u) = .zero s) : u = .zero s := by
  cases u with
  | notANumber => cases h
  | infinity s' => cases s' <;> cases h
  | zero s' => cases s' <;> exact h
  | finite s' m e hpos =>
    exfalso
    obtain ⟨hm, he⟩ := hu
    obtain ⟨hexponent, hmantissa⟩ := unpack_eq_zero h
    rcases lt_or_ge e 972 with hfits | hbeyond
    · rcases Nat.lt_or_ge m (2 ^ 52) with hshort | hfull
      · rw [pack_short hpos hshort hfits, UnpackedFloat.unpackMantissa_packComponents] at hmantissa
        have hzero : m % 2 ^ 52 = 0 := (BitVec.toNat_ofNat _ _).symm.trans (congrArg BitVec.toNat hmantissa)
        omega
      · rw [pack_full hpos hfull hm hfits, UnpackedFloat.unpackExponent_packComponents] at hexponent
        have hzero : (e + 1075).toNat % 2 ^ 11 = 0 :=
          (BitVec.toNat_ofNat _ _).symm.trans (congrArg BitVec.toNat hexponent)
        omega
    · rw [pack_beyond hpos hbeyond] at h
      cases s' <;> cases h

end Binary64

/-! ## Floats -/

open Binary64

/-- the sign, mantissa and exponent of a float, or the special value that it is -/
def parts (v : Float) : UnpackedFloat := v.toModel.unpack

theorem parts_inFormat (v : Float) : InFormat (parts v) := (pack_unpack v.toModel.valid).2

/-- the parts tell the float -/
theorem ofModel_pack_parts (v : Float) : Float.ofModel (.pack (parts v)) = v := by
  refine float_ext (UInt64.toBitVec_inj.1 ?_)
  exact (pack_unpack v.toModel.valid).1

theorem add_eq_of_parts (h : UnpackedFloat.add Format.binary64 (parts a) (parts b) = parts c) : a + b = c := by
  have hsum : a + b = Float.ofModel (.pack (.add Format.binary64 (parts a) (parts b))) := rfl
  rw [hsum, h, ofModel_pack_parts]

theorem isZero_iff : isZero v = true ↔ ∃ s, parts v = .zero s := by
  have hbeq : isZero v = ((parts v).compare (.zero .positive) == some .eq) := rfl
  rw [hbeq]
  cases parts v with
  | zero s => exact iff_of_true rfl ⟨s, rfl⟩
  | notANumber => exact iff_of_false Bool.false_ne_true (by rintro ⟨s, ⟨⟩⟩)
  | infinity s => cases s <;> exact iff_of_false Bool.false_ne_true (by rintro ⟨s, ⟨⟩⟩)
  | finite s => cases s <;> exact iff_of_false Bool.false_ne_true (by rintro ⟨s, ⟨⟩⟩)

/-- **The negative zero is the only number that a zero changes.** -/
theorem absorbs_iff : Absorbs v ↔ parts v ≠ .zero .negative := by
  constructor
  · intro h hv
    have hsum : v + .ofBits 0 = .ofBits 0 := add_eq_of_parts (by rw [hv]; rfl)
    have hzero := (h (.ofBits 0) isZero_zero).symm.trans hsum
    rw [hzero] at hv
    cases hv
  · intro hv z hz
    obtain ⟨s, hs⟩ := isZero_iff.1 hz
    refine add_eq_of_parts ?_
    rw [hs]
    generalize parts v = u at hv
    rcases u with s' | - | s' | - <;> try rfl
    cases s' <;> cases s <;> first | rfl | exact absurd rfl hv

theorem absorbs_of_nonZero (hv : isNonZero v = true) : Absorbs v := by
  refine absorbs_iff.2 fun hparts => ?_
  rw [isNonZero, isZero_iff.2 ⟨_, hparts⟩] at hv
  cases hv

/-- a number that is not zero takes the place of a zero that it is added to -/
theorem zero_add_nonZero (hz : isZero z = true) (hv : isNonZero v = true) : z + v = v := by
  obtain ⟨s, hs⟩ := isZero_iff.1 hz
  refine add_eq_of_parts ?_
  rw [hs]
  cases hparts : parts v with
  | zero s' =>
    rw [isNonZero, isZero_iff.2 ⟨s', hparts⟩] at hv
    cases hv
  | _ => rfl

theorem isZero_add (ha : isZero a = true) (hb : isZero b = true) : isZero (a + b) = true := by
  obtain ⟨s, hs⟩ := isZero_iff.1 ha
  obtain ⟨s', hs'⟩ := isZero_iff.1 hb
  have hsum : parts (a + b) = parts (.ofModel (.pack (.add Format.binary64 (parts a) (parts b)))) := rfl
  rw [hs, hs'] at hsum
  cases s <;> cases s' <;> exact isZero_iff.2 ⟨_, hsum⟩

/-- **A sum with a number that absorbs zeros absorbs zeros**, whatever is added: no sum of other numbers is the negative
zero. -/
theorem absorbs_add (hc : Absorbs c) (v : Float) : Absorbs (c + v) := by
  obtain ⟨hformat, hne⟩ := add_inFormat (parts_inFormat c) (parts_inFormat v)
  refine absorbs_iff.2 fun hparts => hne (absorbs_iff.1 hc) ?_
  exact unpack_pack_eq_zero hformat hparts

instance : NeutralZeros Float where
  zero_add := zero_add_nonZero
  isZero_add := isZero_add
  absorbs_zero := absorbs_iff.2 (by rintro ⟨⟩)
  absorbs_of_nonZero := absorbs_of_nonZero
  absorbs_add := absorbs_add

/-! ## Products with zeros -/

/-- the first bit as a sign -/
def signOf (v : Float) : Sign := .ofBitVec (@unpackSign Format.binary64 v.toBits.toBitVec)

theorem isNegative_eq (v : Float) : isNegative v = (signOf v == .negative) := by
  have hbit : (@unpackSign Format.binary64 v.toBits.toBitVec).toNat = v.toBits.toNat / 0x8000000000000000 := by
    have hlt := v.toBits.toNat_lt
    rw [unpackSign_eq, BitVec.extractLsb'_toNat, Nat.shiftRight_eq_div_pow]
    change v.toBits.toNat / 2 ^ 63 % 2 ^ 1 = _
    omega
  rw [isNegative, ← hbit, signOf]
  generalize @unpackSign Format.binary64 v.toBits.toBitVec = x
  revert x
  decide

theorem isNegative_eq_iff : isNegative a = isNegative b ↔ signOf a = signOf b := by
  rw [isNegative_eq, isNegative_eq]
  cases signOf a <;> cases signOf b
  · exact iff_of_true rfl rfl
  · exact iff_of_false (by decide) (by rintro ⟨⟩)
  · exact iff_of_false (by decide) (by rintro ⟨⟩)
  · exact iff_of_true rfl rfl

theorem sign_of_zero {s : Sign} (h : parts v = .zero s) : s = signOf v := by
  have hcases : Unpacked v.toBits.toBitVec (parts v) := unpacked _
  rw [h] at hcases
  cases hcases with
  | zero => rfl

/-- a zero times a finite number is a zero with the sign of the product, and times any other it is no number -/
theorem zero_mul_parts (s : Sign) (v : Float) : UnpackedFloat.mul Format.binary64 (.zero s) (parts v) =
    match v.isFinite with
    | true => .zero (s * signOf v)
    | false => .notANumber := by
  have hfinite : v.isFinite = (parts v).isFinite := rfl
  have hcases : Unpacked v.toBits.toBitVec (parts v) := unpacked _
  rw [hfinite, signOf]
  generalize parts v = u at hcases
  cases hcases <;> rfl

/-- **A product with a zero is the positive zero** if the other number is finite and has the same sign, and only then:
different signs make it the negative zero, and an infinity or no number makes it no number. -/
theorem zero_mul_eq_iff (hz : isZero z = true) : z * v = zero ↔ v.isFinite = true ∧ isNegative z = isNegative v := by
  obtain ⟨s, hs⟩ := isZero_iff.1 hz
  have hproduct : z * v = .ofModel (.pack (.mul Format.binary64 (parts z) (parts v))) := rfl
  have hnone : Float.ofModel (.pack .notANumber) ≠ zero := fun h => absurd (congrArg Float.toBits h) (by decide)
  have hnegative : Float.ofModel (.pack (.zero .negative)) ≠ zero := fun h =>
    absurd (congrArg Float.toBits h) (by decide)
  rw [hproduct, hs, zero_mul_parts, isNegative_eq_iff, ← sign_of_zero hs]
  cases v.isFinite with
  | false => exact iff_of_false hnone fun h => Bool.false_ne_true h.1
  | true =>
    cases s <;> cases signOf v
    · exact iff_of_true rfl ⟨rfl, rfl⟩
    · exact iff_of_false hnegative (by rintro ⟨-, ⟨⟩⟩)
    · exact iff_of_false hnegative (by rintro ⟨-, ⟨⟩⟩)
    · exact iff_of_true rfl ⟨rfl, rfl⟩

end MatrixEngine
