/-
Row types: what a row-wise operator makes of the rows of an `m x n` input.

A type either writes one output row per input row, or lets every row accumulate into the same cells. Some types need
a second output dimension `n2`, which comes from the side matrix or is fixed by the operator.
-/
import MatrixEngine.Text.Numeral

namespace MatrixEngine

/-- shape and aggregation of a row-wise operator -/
inductive RowType where
  | noAgg
  | noAggB1
  | noAggConst
  | fullAgg
  | rowAgg
  | colAgg
  | colAggT
  | colAggB1
  | colAggB1T
  | colAggB1R
  | colAggConst
  deriving DecidableEq, Repr

namespace RowType

def all : List RowType :=
  [noAgg, noAggB1, noAggConst, fullAgg, rowAgg, colAgg, colAggT, colAggB1, colAggB1T, colAggB1R, colAggConst]

/-- the name in reports and arguments -/
def label : RowType → String
  | noAgg => "NO_AGG"
  | noAggB1 => "NO_AGG_B1"
  | noAggConst => "NO_AGG_CONST"
  | fullAgg => "FULL_AGG"
  | rowAgg => "ROW_AGG"
  | colAgg => "COL_AGG"
  | colAggT => "COL_AGG_T"
  | colAggB1 => "COL_AGG_B1"
  | colAggB1T => "COL_AGG_B1_T"
  | colAggB1R => "COL_AGG_B1R"
  | colAggConst => "COL_AGG_CONST"

/-- the name in documents, which parts every capital letter -/
def name : RowType → String
  | colAggB1R => "COL_AGG_B1_R"
  | t => t.label

def parse? (s : String) : Option RowType := all.find? fun t => Numeral.lower t.label == Numeral.lower s

/-- what is said of a text that names no row type -/
def unknownMessage (s : String) : String := s!"unknown row type '{s}'"

def isColumnAgg : RowType → Bool
  | colAgg | colAggT | colAggB1 | colAggB1T | colAggB1R | colAggConst => true
  | _ => false

def usesB1 : RowType → Bool
  | noAggB1 | colAggB1 | colAggB1T | colAggB1R => true
  | _ => false

/-- an outer product with B1 summed over the rows -/
def isOuterB1 : RowType → Bool
  | colAggB1 | colAggB1T => true
  | _ => false

/-- whether the second output dimension is fixed by the operator -/
def fixesDim2 (t : RowType) (constDim2 : Option Nat) : Bool :=
  match t with
  | noAggConst | colAggConst => true
  | t => constDim2.isSome && t.usesB1

/-- each input row owns a slice of the output -/
def writesRows : RowType → Bool
  | noAgg | noAggB1 | noAggConst | rowAgg => true
  | _ => false

/-- every row accumulates into the same cells -/
def aggregates (t : RowType) : Bool := t.isColumnAgg || t == fullAgg

/-- output dimensions, unless a dimension they need is missing -/
def outputShape (t : RowType) (m n : Nat) (n2 constDim2 : Option Nat) : Option (Nat × Nat) :=
  match t with
  | noAgg => some (m, n)
  | noAggB1 => n2.map (m, ·)
  | noAggConst => constDim2.map (m, ·)
  | fullAgg => some (1, 1)
  | rowAgg => some (m, 1)
  | colAgg => some (1, n)
  | colAggT => some (n, 1)
  | colAggB1 => n2.map (·, n)
  | colAggB1T => n2.map (n, ·)
  | colAggB1R => n2.map (1, ·)
  | colAggConst => constDim2.map (1, ·)

end RowType

end MatrixEngine
