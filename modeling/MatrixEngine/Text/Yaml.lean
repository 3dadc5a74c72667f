/-
YAML trees, and typed values read out of them.

A plain scalar has no quotes around it; only plain scalars can be unset or be numbers, while a text is read from a
scalar of either kind.
-/
import MatrixEngine.Text.Numeral

namespace MatrixEngine

/-- a node of a document -/
inductive Yaml where
  | scalar (plain : Bool) (text : String)
  | sequence (items : List Yaml)
  | mapping (entries : List (Yaml × Yaml))
  deriving Repr, Inhabited

namespace Yaml

/-- nothing written -/
def blank : Yaml := scalar true ""

/-- the spellings of an unset value -/
def isUnset : Yaml → Bool
  | scalar true text => text = "" || text = "~" || text = "null" || text = "Null" || text = "NULL"
  | _ => false

def text? : Yaml → Option String
  | scalar _ text => some text
  | _ => none

/-- digits of a base behind their mark -/
def marked? (mark : Char) (base : Nat) : List Char → Option Nat
  | '0' :: c :: ds => if c = mark ∧ !ds.isEmpty then Numeral.digits? base ds else none
  | _ => none

/-- decimal digits without leading zeros -/
def decimal? : List Char → Option Nat
  | [] => none
  | '0' :: _ :: _ => none
  | ds => Numeral.digits? 10 ds

/-- an unsigned integer: an optional plus, then decimal digits, or hexadecimal, octal or binary ones behind `0x`,
`0o` or `0b` -/
def unsigned? (limit : Nat) : Yaml → Option Nat
  | scalar true text =>
    let ds := match text.toList with
      | '+' :: ds => ds
      | ds => ds
    (marked? 'x' 16 ds <|> marked? 'o' 8 ds <|> marked? 'b' 2 ds <|> decimal? ds).filter (· ≤ limit)
  | _ => none

def optional? {β : Type} (read : Yaml → Option β) (y : Yaml) : Option (Option β) :=
  if y.isUnset then some none else (read y).map some

/-- the entries of a mapping; nothing written is a mapping without entries -/
def entries? : Yaml → Option (List (Yaml × Yaml))
  | mapping entries => some entries
  | scalar true "" => some []
  | _ => none

/-- the items of a sequence; nothing written is a sequence without items -/
def items? : Yaml → Option (List Yaml)
  | sequence items => some items
  | scalar true "" => some []
  | _ => none

/-- the entries under their names; every key must be a scalar -/
def named? (entries : List (Yaml × Yaml)) : Option (List (String × Yaml)) :=
  entries.mapM fun (k, v) => k.text?.map (·, v)

/-- the value of a field, which may come once at most; `none` inside if it is missing -/
def field? (members : List (String × Yaml)) (name : String) : Option (Option Yaml) :=
  match members.filter (·.1 = name) with
  | [] => some none
  | [(_, v)] => some (some v)
  | _ => none

/-- the values of the named fields of a mapping; other fields are passed over -/
def fields? (names : List String) (y : Yaml) : Option (List (Option Yaml)) := do
  let members ← named? (← y.entries?)
  names.mapM (field? members)

def required? {β : Type} (read : Yaml → Option β) : Option Yaml → Option β
  | some y => read y
  | none => none

def maybe? {β : Type} (read : Yaml → Option β) : Option Yaml → Option (Option β)
  | some y => optional? read y
  | none => some none

end Yaml

end MatrixEngine
