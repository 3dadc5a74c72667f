/-
Decimal text of binary numbers, in exact arithmetic.

A finite float is a rational with its rounding interval, the numbers that read back as that float. `shortest` looks
for the coarsest decimal grid with a point in the interval and takes the nearest such point, a tie going to the even
neighbour. `format` lays the digits out, and `fixed` writes a given number of places.
-/
namespace MatrixEngine

/-- a decimal `coefficient * 10 ^ exponent` -/
structure Decimal where
  coefficient : Nat
  exponent : Int
  deriving DecidableEq, Repr

/-- the magnitude of a finite float as `num / den`; its rounding interval reaches from `(4 * num - below) / (4 * den)`
to `(4 * num + above) / (4 * den)`, and `closed` tells whether the ends belong to it -/
structure BinaryMagnitude where
  num : Nat
  den : Nat
  below : Nat
  above : Nat
  closed : Bool
  deriving DecidableEq, Repr

namespace BinaryMagnitude

/-- `2 ^ q` as a quotient -/
def powerOfTwo (q : Int) : Nat × Nat :=
  if q < 0 then (1, Nat.pow 2 (-q).toNat) else (Nat.pow 2 q.toNat, 1)

/-- the magnitude encoded by the low 63 bits of a 64-bit float, none for infinities and NaN -/
def ofBits? (bits : Nat) : Option BinaryMagnitude :=
  let fraction : Nat := bits % 0x10000000000000
  let biased : Nat := bits / 0x10000000000000 % 0x800
  if biased = 2047 then none
  else
    let m : Nat := if biased = 0 then fraction else 0x10000000000000 + fraction
    let q : Int := (if biased = 0 then 1 else (biased : Int)) - 1075
    let (up, down) := powerOfTwo q
    let below : Nat := if fraction = 0 ∧ 1 < biased then 1 else 2
    some ⟨m * up, down, below * up, 2 * up, m % 2 == 0⟩

def contains (x : BinaryMagnitude) (d : Nat) (e : Int) : Bool :=
  let (up, down) := if e < 0 then (1, Nat.pow 10 (-e).toNat) else (Nat.pow 10 e.toNat, 1)
  let v := d * up * (4 * x.den)
  let low := (4 * x.num - x.below) * down
  let high := (4 * x.num + x.above) * down
  if x.closed then low ≤ v && v ≤ high else low < v && v < high

end BinaryMagnitude

namespace Decimal

/-- number of decimal digits, none for zero -/
def digitCount (n : Nat) : Nat := if n = 0 then 0 else (Nat.toDigits 10 n).length

/-- the exponent `k` with `10 ^ k ≤ num / den < 10 ^ (k + 1)`, for a positive quotient -/
def leadingExponent (num den : Nat) : Int :=
  if den ≤ num then (digitCount (num / den) : Int) - 1 else -(digitCount ((den - 1) / num) : Int)

def normalize (d : Decimal) : Decimal :=
  if _h : d.coefficient ≠ 0 ∧ d.coefficient % 10 = 0 then
    normalize ⟨d.coefficient / 10, d.exponent + 1⟩
  else d
termination_by d.coefficient
decreasing_by exact Nat.div_lt_self (Nat.pos_of_ne_zero _h.1) (by decide)

/-- the point of the grid `10 ^ e` that reads back as `x` and is nearest to it, if there is one -/
def onGrid? (x : BinaryMagnitude) (e : Int) : Option Decimal :=
  let (num, den) := if e < 0 then (x.num * Nat.pow 10 (-e).toNat, x.den) else (x.num, x.den * Nat.pow 10 e.toNat)
  let lo := num / den
  let hi := lo + 1
  let rest := num % den
  match x.contains lo e && lo != 0, x.contains hi e with
  | false, false => none
  | true, false => some ⟨lo, e⟩
  | false, true => some ⟨hi, e⟩
  | true, true =>
    if 2 * rest < den then some ⟨lo, e⟩
    else if den < 2 * rest then some ⟨hi, e⟩
    else if lo % 2 = 0 then some ⟨lo, e⟩ else some ⟨hi, e⟩

/-- the first hit on the grids of `n, n + 1, …` digits; `tries` bounds their number -/
def firstGrid (x : BinaryMagnitude) (k : Int) : Nat → Nat → Decimal
  | 0, _ => ⟨x.num / x.den, 0⟩
  | tries + 1, n =>
    match onGrid? x (k - n) with
    | some d => d
    | none => firstGrid x k tries (n + 1)

/-- the decimal with the fewest digits that reads back as `x`, which must not be zero; seventeen digits suffice -/
def shortest (x : BinaryMagnitude) : Decimal :=
  normalize (firstGrid x (leadingExponent x.num x.den) 18 0)

/-- how a decimal is laid out: exponents from `low` to `high` are written by position -/
structure Layout where
  low : Int
  high : Int
  deriving DecidableEq, Repr

def zeroDigits (n : Int) : String := String.ofList (List.replicate n.toNat '0')

/-- digits with a point, or with a point behind the first digit and a signed exponent -/
def format (l : Layout) (d : Decimal) : String :=
  let ds := Nat.toDigits 10 d.coefficient
  let n : Int := ds.length
  let k := d.exponent + n - 1
  if l.low ≤ k ∧ k ≤ l.high then
    if 0 ≤ d.exponent then String.ofList ds ++ zeroDigits d.exponent ++ ".0"
    else if 0 ≤ k then
      String.ofList (ds.take (k + 1).toNat) ++ "." ++ String.ofList (ds.drop (k + 1).toNat)
    else "0." ++ zeroDigits (-k - 1) ++ String.ofList ds
  else
    let tail := if ds.length ≤ 1 then "" else "." ++ String.ofList (ds.drop 1)
    let sign := if k < 0 then "-" else "+"
    String.ofList (ds.take 1) ++ tail ++ "e" ++ sign ++ toString k.natAbs

/-- a quotient to the nearest integer, a tie going to the even one -/
def roundDiv (num den : Nat) : Nat :=
  let q := num / den
  let r := num % den
  if 2 * r < den then q
  else if den < 2 * r then q + 1
  else if q % 2 = 0 then q else q + 1

/-- `num / den` with `places` digits behind the point -/
def fixed (places num den : Nat) : String :=
  let unit := Nat.pow 10 places
  let n := roundDiv (num * unit) den
  let frac := Nat.toDigits 10 (n % unit)
  toString (n / unit) ++ "." ++ zeroDigits (places - frac.length) ++ String.ofList frac

end Decimal

/-- numbers with a written form in plans and digests -/
class CellText (α : Type) where
  text : α → String

/-- floats in documents: by position from `1e-5` up to below `1e16` -/
def documentLayout : Decimal.Layout := ⟨-5, 15⟩

/-- the shortest text that reads back; infinities and NaN have no number text and are written `null` -/
def floatText (v : Float) : String :=
  let bits := v.toBits.toNat
  match BinaryMagnitude.ofBits? bits with
  | none => "null"
  | some x =>
    let sign := if bits / 0x8000000000000000 = 1 then "-" else ""
    if x.num = 0 then sign ++ "0.0" else sign ++ (Decimal.shortest x).format documentLayout

instance : CellText Float := ⟨floatText⟩

/-- a finite float with two places, as in a size in megabytes -/
def twoPlaces (v : Float) : String :=
  match BinaryMagnitude.ofBits? v.toBits.toNat with
  | none => ""
  | some x => Decimal.fixed 2 x.num x.den

end MatrixEngine
