/-
Physical operators: the steps of a lowered plan.

An operator has a number that tells it from others, a kind, a placement, what is known of its output, and its inputs.
Operators form a graph in which shared inputs carry the same number. Numbers are not part of the written form. An
operator knows where in a program text it comes from (`Position`).
-/
import MatrixEngine.Plan.Placement
import MatrixEngine.Plan.Reorg
import MatrixEngine.Text.Json.Reader

namespace MatrixEngine

/-- first and last place of an operator in a text -/
structure Position where
  beginLine : Nat := 0
  beginColumn : Nat := 0
  endLine : Nat := 0
  endColumn : Nat := 0
  deriving DecidableEq, Repr

namespace Position

def label (p : Position) : String :=
  s!"line {p.beginLine}:{p.beginColumn} - line {p.endLine}:{p.endColumn}"

def toJson (p : Position) : Json :=
  .object [("begin_line", .nat p.beginLine), ("begin_column", .nat p.beginColumn), ("end_line", .nat p.endLine),
    ("end_column", .nat p.endColumn)]

def fieldNames : List String := ["begin_line", "begin_column", "end_line", "end_column"]

def ofJson? (j : Json) : Option Position := do
  match ← (← Json.fields? fieldNames j).mapM (Json.required? Json.word32?) with
  | [beginLine, beginColumn, endLine, endColumn] => return { beginLine, beginColumn, endLine, endColumn }
  | _ => none

end Position

/-- what an aggregation computes: sums, or the diagonal of a matrix as a column -/
inductive Aggregation where
  | sum
  | diagToVector
  deriving DecidableEq, Repr

/-- along which dimension a partial aggregation runs -/
inductive Direction where
  | row
  | col
  | rowCol
  deriving DecidableEq, Repr

/-- where the compensation term of a sum travels -/
inductive Correction where
  | none
  | lastRow
  | lastColumn
  deriving DecidableEq, Repr

namespace Aggregation

/-- the name on paper -/
def title : Aggregation → String
  | sum => "Sum"
  | diagToVector => "DiagM2V"

/-- the name in documents -/
def name : Aggregation → String
  | sum => "sum"
  | diagToVector => "diag_m2v"

def ofName? : String → Option Aggregation
  | "sum" => some sum
  | "diag_m2v" => some diagToVector
  | _ => none

end Aggregation

namespace Direction

/-- the name on paper -/
def title : Direction → String
  | row => "Row"
  | col => "Col"
  | rowCol => "RowCol"

/-- the name in documents -/
def name : Direction → String
  | row => "row"
  | col => "col"
  | rowCol => "row_col"

def ofName? : String → Option Direction
  | "row" => some row
  | "col" => some col
  | "row_col" => some rowCol
  | _ => none

end Direction

namespace Correction

/-- the name on paper -/
def title : Correction → String
  | none => "None"
  | lastRow => "LastRow"
  | lastColumn => "LastColumn"

/-- the name in documents -/
def name : Correction → String
  | none => "none"
  | lastRow => "last_row"
  | lastColumn => "last_column"

def ofName? : String → Option Correction
  | "none" => some none
  | "last_row" => some lastRow
  | "last_column" => some lastColumn
  | _ => .none

/-- where a partial aggregation leaves its compensation term -/
def ofPartial : Aggregation → Direction → Correction
  | .sum, .col => lastRow
  | .sum, _ => lastColumn
  | .diagToVector, _ => none

end Correction

/-- what an operator does: read a bound block, reorganise, aggregate into keyed cells, sort keyed cells by key, or
aggregate equal keys -/
inductive OperatorKind where
  | data (name : String)
  | transform (op : Reorg)
  | partialAggregate (op : Aggregation) (direction : Direction)
  | group
  | aggregate (op : Aggregation)
  deriving DecidableEq, Repr

/-- the kind on paper -/
def OperatorKind.label : OperatorKind → String
  | data name => "Data(" ++ name ++ ")"
  | transform op => "Transform(" ++ op.title ++ ")"
  | partialAggregate op direction => "PartialAggregate(" ++ op.title ++ ", " ++ direction.title ++ ")"
  | group => "Group(Sort)"
  | aggregate op => "Aggregate(" ++ op.title ++ ")"

/-- a step of a plan with its inputs -/
structure Operator where
  number : Nat
  kind : OperatorKind
  placement : Placement
  output : SizeInfo
  correction : Option Correction
  position : Position
  inputs : List Operator
  deriving Repr

inductive OperatorFault where
  | unsupportedAggregate (op : Aggregation) (direction : Direction)
  | expectedGroup (got : String)
  deriving DecidableEq, Repr

def OperatorFault.message : OperatorFault → String
  | unsupportedAggregate op direction =>
    "unsupported partial aggregate " ++ op.title ++ " along " ++ direction.title
  | expectedGroup got => s!"aggregate expects a group input, got {got}"

/-- an operator number on paper -/
def operatorLabel (n : Nat) : String := s!"LopId({n})"

namespace Operator

def data (number : Nat) (name : String) (output : SizeInfo) (position : Position) : Operator :=
  ⟨number, .data name, .local, output, none, position, []⟩

def transform (number : Nat) (input : Operator) (op : Reorg) (placement : Placement) (output : SizeInfo)
    (position : Position) : Operator :=
  ⟨number, .transform op, placement, output, none, position, [input]⟩

/-- aggregate a matrix into keyed cells; a diagonal runs along the columns only -/
def partialAggregate (number : Nat) (input : Operator) (op : Aggregation) (direction : Direction)
    (placement : Placement) (output : SizeInfo) (position : Position) : Except OperatorFault Operator :=
  if op = .diagToVector ∧ direction ≠ .col then .error (.unsupportedAggregate op direction)
  else
    .ok ⟨number, .partialAggregate op direction, placement, output, some (.ofPartial op direction), position, [input]⟩

/-- sort keyed cells by key -/
def group (number : Nat) (input : Operator) (placement : Placement) (output : SizeInfo) (position : Position) :
    Operator :=
  ⟨number, .group, placement, output, none, position, [input]⟩

/-- aggregate equal keys of sorted cells -/
def aggregate (number : Nat) (input : Operator) (op : Aggregation) (placement : Placement) (output : SizeInfo)
    (position : Position) : Except OperatorFault Operator :=
  if input.kind = .group then .ok ⟨number, .aggregate op, placement, output, none, position, [input]⟩
  else .error (.expectedGroup input.kind.label)

def withCorrection (o : Operator) (c : Correction) : Operator := { o with correction := some c }

mutual

/-- the operators below and including this one, inputs first; a shared one comes once per use -/
def walk : Operator → List Operator
  | ⟨number, kind, placement, output, correction, position, inputs⟩ =>
    walkAll inputs ++ [⟨number, kind, placement, output, correction, position, inputs⟩]

def walkAll : List Operator → List Operator
  | [] => []
  | o :: rest => walk o ++ walkAll rest

end

/-- the numbers of a list, each once -/
def distinct (ns : List Nat) : List Nat := ns.foldl (fun seen n => if seen.contains n then seen else seen ++ [n]) []

/-- number of operators below and including this one, shared ones counted once -/
def count (o : Operator) : Nat := (distinct (o.walk.map (·.number))).length

/-- the operator without its inputs on paper -/
def headLine (kind : OperatorKind) (placement : Placement) (output : SizeInfo) (correction : Option Correction) :
    String :=
  kind.label ++ " " ++ placement.label ++ " " ++ output.label
    ++ (match correction with
      | some c => " corr=" ++ c.title
      | none => "")

mutual

/-- the operator and, indented below it, its inputs -/
def tree (depth : Nat) : Operator → String
  | ⟨_, kind, placement, output, correction, _, inputs⟩ =>
    String.ofList (List.replicate (2 * depth) ' ') ++ headLine kind placement output correction ++ "\n"
      ++ treeAll (depth + 1) inputs

def treeAll (depth : Nat) : List Operator → String
  | [] => ""
  | o :: rest => tree depth o ++ treeAll depth rest

end

end Operator

/-- the operators whose results a plan delivers -/
structure Program where
  roots : List Operator
  deriving Repr

namespace Program

/-- all roots on paper -/
def tree (p : Program) : String := Operator.treeAll 0 p.roots

/-- number of operators below each root -/
def counts (p : Program) : List Nat := p.roots.map Operator.count

end Program

end MatrixEngine
