/-
Reading JSON documents.

`parse?` accepts exactly the JSON grammar, with blanks around tokens and at most `maxDepth` containers inside one
another. Numbers keep their text. The recursion is bounded by the length of the text: every step that calls itself
twice in a row has read a character in between.

Typed values are read out of documents. A record is an object with the named fields, or an array of the fields in their
order. Fields the record does not name are skipped, a named field may come once only, and a field that may be missing is
read as `null`.
-/
import MatrixEngine.Text.Json
import MatrixEngine.Text.Numeral

namespace MatrixEngine.Json

/-- how many containers may be open at once -/
def maxDepth : Nat := 127

/-- the four blank characters between tokens -/
def isBlank (c : Char) : Bool := c = ' ' || c = '\n' || c = '\t' || c = '\r'

def skipBlanks (cs : List Char) : List Char := cs.dropWhile isBlank

/-- the value of four hexadecimal digits and the rest -/
def codeUnit? : List Char → Option (Nat × List Char)
  | a :: b :: c :: d :: rest => (Numeral.digits? 16 [a, b, c, d]).map (·, rest)
  | _ => none

/-- a character written as one code unit or as a surrogate pair -/
def escapedCode? (cs : List Char) : Option (Char × List Char) := do
  let (hi, rest) ← codeUnit? cs
  if 0xD800 ≤ hi ∧ hi < 0xDC00 then
    match rest with
    | '\\' :: 'u' :: rest =>
      let (lo, rest) ← codeUnit? rest
      if 0xDC00 ≤ lo ∧ lo < 0xE000 then
        return (Char.ofNat (0x10000 + (hi - 0xD800) * 0x400 + (lo - 0xDC00)), rest)
      else none
    | _ => none
  else if 0xDC00 ≤ hi ∧ hi < 0xE000 then none
  else return (Char.ofNat hi, rest)

/-- the character after a backslash stands for -/
def escapedChar? : Char → Option Char
  | '"' => some '"'
  | '\\' => some '\\'
  | '/' => some '/'
  | 'b' => some '\x08'
  | 'f' => some '\x0c'
  | 'n' => some '\n'
  | 'r' => some '\r'
  | 't' => some '\t'
  | _ => none

/-- the characters up to the closing quote, in reverse onto `acc`; control characters must be escaped -/
def quoted? : Nat → List Char → List Char → Option (String × List Char)
  | 0, _, _ => none
  | _ + 1, _, [] => none
  | n + 1, acc, c :: rest =>
    if c = '"' then some (String.ofList acc.reverse, rest)
    else if c = '\\' then
      match rest with
      | 'u' :: rest => do
        let (c, rest) ← escapedCode? rest
        quoted? n (c :: acc) rest
      | c :: rest => do
        let c ← escapedChar? c
        quoted? n (c :: acc) rest
      | [] => none
    else if c.toNat < 32 then none
    else quoted? n (c :: acc) rest

/-- an integer part: one zero, or digits that do not begin with zero -/
def integerPart? (cs : List Char) : Option (List Char × List Char) :=
  match cs with
  | '0' :: rest => if (rest.head?.map Char.isDigit).getD false then none else some (['0'], rest)
  | _ =>
    let (ds, rest) := Numeral.spanDigits cs
    if ds.isEmpty then none else some (ds, rest)

/-- a fraction if there is one, with at least one digit behind the point -/
def fractionPart? (cs : List Char) : Option (List Char × List Char) :=
  match cs with
  | '.' :: rest =>
    let (ds, rest) := Numeral.spanDigits rest
    if ds.isEmpty then none else some ('.' :: ds, rest)
  | _ => some ([], cs)

/-- an exponent if there is one -/
def exponentPart? (cs : List Char) : Option (List Char × List Char) :=
  match cs with
  | c :: rest =>
    if c = 'e' ∨ c = 'E' then
      let (sign, rest) := match rest with
        | '+' :: rest => (['+'], rest)
        | '-' :: rest => (['-'], rest)
        | rest => ([], rest)
      let (ds, rest) := Numeral.spanDigits rest
      if ds.isEmpty then none else some (c :: (sign ++ ds), rest)
    else some ([], cs)
  | [] => some ([], [])

def number? (cs : List Char) : Option (Json × List Char) := do
  let (sign, cs) := match cs with
    | '-' :: rest => (['-'], rest)
    | _ => ([], cs)
  let (whole, cs) ← integerPart? cs
  let (frac, cs) ← fractionPart? cs
  let (exp, cs) ← exponentPart? cs
  return (.number (String.ofList (sign ++ whole ++ frac ++ exp)), cs)

mutual

/-- a value and the rest; `depth` containers may still be opened, `n` bounds the steps -/
def value? : Nat → Nat → List Char → Option (Json × List Char)
  | 0, _, _ => none
  | n + 1, depth, cs =>
    match skipBlanks cs with
    | 'n' :: 'u' :: 'l' :: 'l' :: rest => some (.null, rest)
    | 't' :: 'r' :: 'u' :: 'e' :: rest => some (.bool true, rest)
    | 'f' :: 'a' :: 'l' :: 's' :: 'e' :: rest => some (.bool false, rest)
    | '"' :: rest => (quoted? (rest.length + 1) [] rest).map fun (s, rest) => (.string s, rest)
    | '[' :: rest =>
      match depth with
      | 0 => none
      | depth + 1 =>
        match skipBlanks rest with
        | ']' :: rest => some (.array [], rest)
        | rest => (items? n depth rest).map fun (js, rest) => (.array js, rest)
    | '\x7b' :: rest =>
      match depth with
      | 0 => none
      | depth + 1 =>
        match skipBlanks rest with
        | '\x7d' :: rest => some (.object [], rest)
        | rest => (members? n depth rest).map fun (ms, rest) => (.object ms, rest)
    | cs => number? cs

/-- one item or more up to the closing bracket -/
def items? : Nat → Nat → List Char → Option (List Json × List Char)
  | 0, _, _ => none
  | n + 1, depth, cs => do
    let (j, rest) ← value? n depth cs
    match skipBlanks rest with
    | ',' :: rest => (items? n depth rest).map fun (js, rest) => (j :: js, rest)
    | ']' :: rest => some ([j], rest)
    | _ => none

/-- one member or more up to the closing brace -/
def members? : Nat → Nat → List Char → Option (List (String × Json) × List Char)
  | 0, _, _ => none
  | n + 1, depth, cs =>
    match skipBlanks cs with
    | '"' :: rest => do
      let (k, rest) ← quoted? (rest.length + 1) [] rest
      match skipBlanks rest with
      | ':' :: rest =>
        let (j, rest) ← value? n depth rest
        match skipBlanks rest with
        | ',' :: rest => (members? n depth rest).map fun (ms, rest) => ((k, j) :: ms, rest)
        | '\x7d' :: rest => some ([(k, j)], rest)
        | _ => none
      | _ => none
    | _ => none

end

def parse? (s : String) : Option Json := do
  let cs := s.toList
  let (j, rest) ← value? (2 * cs.length + 2) maxDepth cs
  if (skipBlanks rest).isEmpty then some j else none

/-! ## Typed values -/

/-- the digits of an integer that is written without point, exponent or minus sign -/
def integer? : Json → Option Nat
  | number text =>
    let cs := text.toList
    if cs.all Char.isDigit then Numeral.digits? 10 cs else none
  | _ => none

def unsigned? (limit : Nat) (j : Json) : Option Nat := j.integer?.filter (· ≤ limit)

def word64? (j : Json) : Option Nat := j.unsigned? Numeral.maxWord64

def word32? (j : Json) : Option Nat := j.unsigned? Numeral.maxWord32

def bool? : Json → Option Bool
  | bool b => some b
  | _ => none

def string? : Json → Option String
  | string s => some s
  | _ => none

/-- a value that may be unset: `null` is read as `none` -/
def optional? {β : Type} (read : Json → Option β) : Json → Option (Option β)
  | null => some none
  | j => (read j).map some

/-- the name of a variant without content: a string, or an object with the name and `null` -/
def variant? : Json → Option String
  | string s => some s
  | object [(k, null)] => some k
  | _ => none

/-- the values of a field in an object -/
def occurrences (members : List (String × Json)) (name : String) : List Json :=
  members.filterMap fun (k, j) => if k = name then some j else none

/-- one field of an object; `none` inside if it is missing -/
def field? (members : List (String × Json)) (name : String) : Option (Option Json) :=
  match occurrences members name with
  | [] => some none
  | [j] => some (some j)
  | _ => none

/-- the fields of a record in the order of their names -/
def fields? (names : List String) : Json → Option (List (Option Json))
  | object members => names.mapM (field? members)
  | array items => if items.length = names.length then some (items.map some) else none
  | _ => none

def required? {β : Type} (read : Json → Option β) : Option Json → Option β
  | some j => read j
  | none => none

def maybe? {β : Type} (read : Json → Option β) : Option Json → Option (Option β)
  | some j => optional? read j
  | none => some none

end MatrixEngine.Json
