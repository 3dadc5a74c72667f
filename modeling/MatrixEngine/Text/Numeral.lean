/-
Numbers and flags as words of text: unsigned integers with a limit, truth values, and decimals.
-/
import MatrixEngine.Number.Decimal

namespace MatrixEngine.Numeral

/-- the value of a digit in a base up to 16 -/
def digitValue? (base : Nat) (c : Char) : Option Nat :=
  let v? :=
    if '0' ≤ c ∧ c ≤ '9' then some (c.toNat - '0'.toNat)
    else if 'a' ≤ c ∧ c ≤ 'f' then some (c.toNat - 'a'.toNat + 10)
    else if 'A' ≤ c ∧ c ≤ 'F' then some (c.toNat - 'A'.toNat + 10)
    else none
  v?.filter (· < base)

/-- the value of a non-empty run of digits -/
def digits? (base : Nat) (cs : List Char) : Option Nat :=
  if cs.isEmpty then none
  else cs.foldlM (fun n c => (digitValue? base c).map (n * base + ·)) 0

def maxWord64 : Nat := 0xffffffffffffffff

def maxWord32 : Nat := 0xffffffff

/-- decimal digits with an optional plus sign, up to a limit -/
def unsigned? (limit : Nat) (s : String) : Option Nat :=
  let cs := match s.toList with
    | '+' :: rest => rest
    | cs => cs
  (digits? 10 cs).filter (· ≤ limit)

/-- `true` or `false`, written exactly so -/
def flag? : String → Option Bool
  | "true" => some true
  | "false" => some false
  | _ => none

/-- letters of the Latin alphabet in lower case, all other characters kept -/
def lower (s : String) : String := String.ofList (s.toList.map Char.toLower)

def spanDigits (cs : List Char) : List Char × List Char := cs.span Char.isDigit

/-- the digits of a fraction part and what follows them -/
def spanFraction : List Char → List Char × List Char
  | '.' :: rest => spanDigits rest
  | rest => ([], rest)

/-- an exponent part with its sign, or nothing -/
def exponent? : List Char → Option Int
  | [] => some 0
  | c :: rest =>
    if c = 'e' ∨ c = 'E' then
      match rest with
      | '-' :: ds => (digits? 10 ds).map fun n => -(n : Int)
      | '+' :: ds => (digits? 10 ds).map fun n => (n : Int)
      | ds => (digits? 10 ds).map fun n => (n : Int)
    else none

/-- the float nearest to `m * 10 ^ e`; magnitudes far outside the range of floats need no powers of ten -/
def nearestFloat (m : Nat) (e : Int) : Float :=
  let size := (Nat.toDigits 10 m).length + e
  if m = 0 ∨ size < -400 then Float.ofBits 0
  else if 400 < size then Float.ofBits 0x7ff0000000000000
  else Float.ofScientific m (e < 0) e.natAbs

/-- the decimal that digits spell out, with an optional point among or around them and an optional exponent -/
def decimal? (cs : List Char) : Option Decimal :=
  let (whole, rest) := spanDigits cs
  let (frac, rest) := spanFraction rest
  if whole.isEmpty ∧ frac.isEmpty then none
  else do
    let e ← exponent? rest
    let m ← digits? 10 (whole ++ frac)
    return ⟨m, e - frac.length⟩

/-- a signed decimal, an infinity or `nan`, in any case -/
def float? (s : String) : Option Float :=
  let (negative, cs) := match s.toList with
    | '-' :: rest => (true, rest)
    | '+' :: rest => (false, rest)
    | cs => (false, cs)
  let magnitude? := match lower (String.ofList cs) with
    | "inf" | "infinity" => some (Float.ofBits 0x7ff0000000000000)
    | "nan" => some (Float.ofBits 0x7ff8000000000000)
    | _ => (decimal? cs).map fun d : Decimal => nearestFloat d.coefficient d.exponent
  magnitude?.map fun v => if negative then -v else v

end MatrixEngine.Numeral
