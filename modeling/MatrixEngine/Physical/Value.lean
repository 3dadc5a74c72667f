/-
What physical operators compute: matrices, and keyed cells between the stages of an aggregation.

Each kind of operator is a function of its inputs' values. A diagonal drops its zeros when it is turned into keyed
cells; sorting is stable; summation adds the values of a key in their order, starting from the empty sum.
-/
import MatrixEngine.Block.Basic
import MatrixEngine.Physical.Operator

namespace MatrixEngine

open Cell

/-- a value for one cell of an aggregation's output -/
structure KeyedCell (α : Type) where
  row : Nat
  col : Nat
  value : α
  deriving DecidableEq, Repr

/-- the result of an operator -/
inductive Value (α : Type) where
  | matrix (d : Dense α)
  | cells (cs : List (KeyedCell α))
  deriving DecidableEq, Repr

inductive EvalError where
  | unbound (name : String)
  | boundDims (label : String) (rows cols : Nat) (declared : SizeInfo)
  | inputCount (label : String) (got : Nat)
  | needsMatrix (label : String)
  | needsCells (label : String)
  | notVector (rows cols : Nat)
  | notSquare (rows cols : Nat)
  | cellOutside (row col rows cols : Nat)
  | unknownDims (label : String)
  | unsupportedPartial (op : Aggregation) (direction : Direction)
  | unsupportedFinal (op : Aggregation)
  | cellsResult (label : String)
  deriving DecidableEq, Repr

def EvalError.text : EvalError → String
  | unbound name => s!"no input bound for '{name}'"
  | boundDims label rows cols declared =>
    s!"{label}: bound block is {rows}x{cols}, plan declares " ++ declared.label
  | inputCount label got => s!"{label} expects exactly 1 input, got {got}"
  | needsMatrix label => s!"{label} expects a matrix input, got keyed cells"
  | needsCells label => s!"{label} expects keyed cells, got matrix"
  | notVector rows cols => s!"diag of a {rows}x{cols} matrix into a matrix needs a vector"
  | notSquare rows cols => s!"diagonal extraction needs a square matrix, got {rows}x{cols}"
  | cellOutside row col rows cols => s!"cell ({row}, {col}) outside the {rows}x{cols} aggregate"
  | unknownDims label => s!"{label} needs known output dims"
  | unsupportedPartial op direction =>
    "partial aggregate " ++ op.title ++ " along " ++ direction.title ++ " is not supported"
  | unsupportedFinal op => "final aggregate " ++ op.title ++ " is not supported"
  | cellsResult label => s!"{label} produces keyed cells, not a matrix"

def EvalError.message (e : EvalError) : String := "plan execution: " ++ e.text

namespace Value

variable {α : Type} [Cell α] [DecidableEq α]

/-- the elements of a vector along the diagonal of a square matrix -/
def diagToMatrix (a : Dense α) : Except EvalError (Dense α) :=
  if a.rows ≠ 1 ∧ a.cols ≠ 1 then .error (.notVector a.rows a.cols)
  else
    let k := max a.rows a.cols
    let out := a.values.toList.zipIdx.foldl (fun (d : Dense α) (v, i) => d.set i i v) (.zeros k k)
    .ok out.recount

def diagonal (a : Dense α) : Except EvalError (List α) :=
  if a.rows = a.cols then .ok ((List.range a.rows).map fun i => (a.get? i i).getD zero)
  else .error (.notSquare a.rows a.cols)

def diagToVector (a : Dense α) : Except EvalError (Dense α) := do
  let vs ← diagonal a
  let values := vs.toArray
  return ⟨a.rows, 1, values, countNonZero values⟩

def reorganise (op : Reorg) (a : Dense α) : Except EvalError (Dense α) :=
  match op with
  | .transpose => .ok a.transpose
  | .diagToMatrix => diagToMatrix a
  | .diagToVector => diagToVector a

/-- the non-zero cells of the diagonal, keyed for a column -/
def diagonalCells (a : Dense α) : Except EvalError (List (KeyedCell α)) := do
  let vs ← diagonal a
  return (vs.zipIdx.map fun (v, i) => ⟨i, 0, v⟩).filter fun c => isNonZero c.value

/-- keys in order of rows, then columns -/
def keyLe (a b : KeyedCell α) : Bool := a.row < b.row || (a.row == b.row && a.col ≤ b.col)

/-- cells sorted by key; cells of one key keep their order -/
def sortByKey (cs : List (KeyedCell α)) : List (KeyedCell α) := cs.mergeSort keyLe

def sameKey (a b : KeyedCell α) : Bool := a.row == b.row && a.col == b.col

/-- write the sum of a run of cells of one key -/
def addRun (out : Dense α) : List (KeyedCell α) → Except EvalError (Dense α)
  | [] => .ok out
  | c :: rest =>
    if out.rows ≤ c.row ∨ out.cols ≤ c.col then .error (.cellOutside c.row c.col out.rows out.cols)
    else .ok (out.set c.row c.col (Cell.sum ((c :: rest).map (·.value))))

/-- the sums of the runs of equal keys in a `rows x cols` matrix -/
def sumRuns (cs : List (KeyedCell α)) (rows cols : Nat) : Except EvalError (Dense α) := do
  let out ← (cs.splitBy sameKey).foldlM addRun (Dense.zeros rows cols)
  return out.recount

/-- the only input of an operator -/
def single (label : String) : List (Value α) → Except EvalError (Value α)
  | [v] => .ok v
  | vs => .error (.inputCount label vs.length)

def singleMatrix (label : String) (args : List (Value α)) : Except EvalError (Dense α) := do
  match ← single label args with
  | matrix d => return d
  | cells _ => throw (.needsMatrix label)

def singleCells (label : String) (args : List (Value α)) : Except EvalError (List (KeyedCell α)) := do
  match ← single label args with
  | cells cs => return cs
  | matrix _ => throw (.needsCells label)

/-- a bound block has the dimensions that are declared, as far as they are -/
def fitsDeclared (declared : SizeInfo) (rows cols : Nat) : Bool :=
  (declared.rows.all (· == rows)) && (declared.cols.all (· == cols))

/-- the value of an operator whose inputs have the values `args`, under a lookup of bound blocks -/
def apply (bound : String → Option (Block α)) (kind : OperatorKind) (output : SizeInfo) (args : List (Value α)) :
    Except EvalError (Value α) :=
  match kind with
  | .data name =>
    match bound name with
    | none => .error (.unbound name)
    | some b =>
      if fitsDeclared output b.rows b.cols then .ok (matrix b.toDense)
      else .error (.boundDims kind.label b.rows b.cols output)
  | .transform op => do return matrix (← reorganise op (← singleMatrix kind.label args))
  | .partialAggregate .diagToVector _ => do return cells (← diagonalCells (← singleMatrix kind.label args))
  | .partialAggregate op direction => .error (.unsupportedPartial op direction)
  | .group => do return cells (sortByKey (← singleCells kind.label args))
  | .aggregate .sum => do
    let cs ← singleCells kind.label args
    match output.dims? with
    | some (rows, cols) => return matrix (← sumRuns cs rows cols)
    | none => throw (.unknownDims kind.label)
  | .aggregate op => .error (.unsupportedFinal op)

end Value

end MatrixEngine
