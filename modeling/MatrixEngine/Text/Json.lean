/-
JSON documents and their two written forms, compact and indented.

Numbers keep their text, so that a document is written back as it was read and the reader of a field decides what
kind of number it wants.
-/
namespace MatrixEngine

/-- a document; members keep their order, and a number is its text -/
inductive Json where
  | null
  | bool (b : Bool)
  | number (text : String)
  | string (s : String)
  | array (items : List Json)
  | object (members : List (String × Json))
  deriving Repr, Inhabited

namespace Json

def nat (n : Nat) : Json := number (toString n)

def nat? : Option Nat → Json
  | some n => nat n
  | none => null

/-- four hexadecimal digits of a control character -/
def controlCode (c : Char) : String :=
  let digit (n : Nat) := if n < 10 then Char.ofNat (48 + n) else Char.ofNat (87 + n)
  String.ofList ['\\', 'u', '0', '0', digit (c.toNat / 16), digit (c.toNat % 16)]

/-- a character inside quotes: quote, backslash and control characters are escaped -/
def escape (c : Char) : String :=
  if c = '"' then "\\\""
  else if c = '\\' then "\\\\"
  else if c = '\x08' then "\\b"
  else if c = '\t' then "\\t"
  else if c = '\n' then "\\n"
  else if c = '\x0c' then "\\f"
  else if c = '\r' then "\\r"
  else if c.toNat < 32 then controlCode c
  else c.toString

def writeString (out : String) (s : String) : String :=
  (s.toList.foldl (fun out c => out ++ escape c) (out.push '"')).push '"'

mutual

/-- append the compact form -/
def write (out : String) : Json → String
  | null => out ++ "null"
  | bool true => out ++ "true"
  | bool false => out ++ "false"
  | number text => out ++ text
  | string s => writeString out s
  | array items => (writeItems (out.push '[') true items).push ']'
  | object members => (writeMembers (out.push '\x7b') true members).push '\x7d'

def writeItems (out : String) (first : Bool) : List Json → String
  | [] => out
  | j :: rest => writeItems (write (if first then out else out.push ',') j) false rest

def writeMembers (out : String) (first : Bool) : List (String × Json) → String
  | [] => out
  | (k, j) :: rest =>
    writeMembers (write ((writeString (if first then out else out.push ',') k).push ':') j) false rest

end

/-- the text without blanks -/
def compact (j : Json) : String := write "" j

def newLine (out : String) (depth : Nat) : String :=
  (2 * depth).fold (fun _ _ out => out.push ' ') (out.push '\n')

mutual

/-- append the indented form -/
def writeIndented (out : String) (depth : Nat) : Json → String
  | null => out ++ "null"
  | bool true => out ++ "true"
  | bool false => out ++ "false"
  | number text => out ++ text
  | string s => writeString out s
  | array [] => out ++ "[]"
  | array (j :: rest) =>
    (newLine (writeIndentedItems (out.push '[') (depth + 1) true (j :: rest)) depth).push ']'
  | object [] => (out.push '\x7b').push '\x7d'
  | object (m :: rest) =>
    (newLine (writeIndentedMembers (out.push '\x7b') (depth + 1) true (m :: rest)) depth).push '\x7d'

def writeIndentedItems (out : String) (depth : Nat) (first : Bool) : List Json → String
  | [] => out
  | j :: rest =>
    let out := newLine (if first then out else out.push ',') depth
    writeIndentedItems (writeIndented out depth j) depth false rest

/-- append members, one a line -/
def writeIndentedMembers (out : String) (depth : Nat) (first : Bool) : List (String × Json) → String
  | [] => out
  | (k, j) :: rest =>
    let out := writeString (newLine (if first then out else out.push ',') depth) k ++ ": "
    writeIndentedMembers (writeIndented out depth j) depth false rest

end

/-- the text with one item a line and two blanks per level -/
def indented (j : Json) : String := writeIndented "" 0 j

end Json

end MatrixEngine
