/-
Dense blocks: a row-major buffer with its stored count of non-zero cells.

The count is kept by the operations. It is exact except after `swapDims`, which relabels the dimensions and leaves
the upper bound `rows * cols` behind until `recount`. Blocks of floats can be made by rule, and compared up to a
tolerance.
-/
import MatrixEngine.Number.Basic

namespace MatrixEngine

open Cell

/-! ## Failures -/

inductive BlockError where
  | valueCount (rows cols got : Nat)
  | raggedRows
  | startCount (expected got : Nat)
  | partsDisagree
  | startsDecrease
  | columnOutOfBounds (col cols : Nat)
  | indexesNotAscending (row : Nat)
  | dictionaryFull
  | zeroWidth
  deriving DecidableEq, Repr

namespace BlockError

/-- a fault of the request and not of the data -/
def isConfiguration : BlockError → Bool
  | zeroWidth => true
  | _ => false

def message : BlockError → String
  | valueCount rows cols got =>
    s!"Shape error: dense block {rows}x{cols} needs {rows * cols} values, got {got}"
  | raggedRows => "Shape error: ragged rows"
  | startCount expected got => s!"Shape error: row_ptr must have {expected} entries, got {got}"
  | partsDisagree => "Shape error: row_ptr/indexes/values disagree"
  | startsDecrease => "Shape error: row_ptr must be non-decreasing"
  | columnOutOfBounds col cols => s!"Shape error: column index {col} out of bounds (cols = {cols})"
  | indexesNotAscending row => s!"Shape error: column indexes of row {row} must be strictly ascending"
  | dictionaryFull => "Shape error: column group dictionary overflow"
  | zeroWidth => "Invalid configuration: group width must be positive"

end BlockError

/-! ## Blocks -/

/-- a row-major block; cell `(i, j)` is at `i * cols + j` -/
structure Dense (α : Type) where
  rows : Nat
  cols : Nat
  values : Array α
  nnz : Nat
  deriving DecidableEq, Repr

namespace Dense

variable {α : Type} [Cell α]

def zeros (rows cols : Nat) : Dense α := ⟨rows, cols, Cell.zeros (rows * cols), 0⟩

/-- from row-major values, which must fill the block -/
def ofValues (rows cols : Nat) (values : Array α) : Except BlockError (Dense α) :=
  if values.size = rows * cols then
    .ok ⟨rows, cols, values, countNonZero values⟩
  else
    .error (.valueCount rows cols values.size)

def ofRows (rows : List (List α)) : Except BlockError (Dense α) :=
  let cols := (rows.head?.map List.length).getD 0
  if rows.all (·.length == cols) then
    ofValues rows.length cols rows.flatten.toArray
  else
    .error .raggedRows

/-- offset of row `i` -/
def pos (d : Dense α) (i : Nat) : Nat := i * d.cols

def row (d : Dense α) (i : Nat) : Array α := d.values.extract (d.pos i) (d.pos i + d.cols)

/-- the cells of row `i`, unless the buffer ends before -/
def row? (d : Dense α) (i : Nat) : Option (Array α) :=
  if d.pos i + d.cols ≤ d.values.size then some (d.row i) else none

/-- cell `(i, j)`; only the end of the buffer is checked -/
def get? (d : Dense α) (i j : Nat) : Option α := d.values[d.pos i + j]?

/-- overwrite one cell of the buffer and leave the count alone -/
def put (d : Dense α) (k : Nat) (v : α) : Dense α := { d with values := d.values.setIfInBounds k v }

/-- the count after a cell `old` became `v` -/
def adjustCount (nnz : Nat) (old v : α) : Nat :=
  if isZero old && isNonZero v then nnz + 1
  else if isNonZero old && isZero v then nnz - 1
  else nnz

/-- overwrite cell `(i, j)` and keep the count in step; a cell outside the buffer is left out -/
def set (d : Dense α) (i j : Nat) (v : α) : Dense α :=
  match d with
  | ⟨rows, cols, values, nnz⟩ =>
    let k := i * cols + j
    if h : k < values.size then
      let nnz' := adjustCount nnz values[k] v
      ⟨rows, cols, values.set k v, nnz'⟩
    else
      ⟨rows, cols, values, nnz⟩

def holds (d : Dense α) (i j : Nat) : Bool := d.pos i + j < d.values.size

def withCount (d : Dense α) (nnz : Nat) : Dense α := { d with nnz := nnz }

def recount (d : Dense α) : Dense α :=
  let n := countNonZero d.values
  { d with nnz := n }

/-- non-zero cells in rows `rl, …, ru - 1`, if the buffer holds them -/
def countRows? (d : Dense α) (rl ru : Nat) : Option Nat :=
  if d.pos rl ≤ d.pos ru ∧ d.pos ru ≤ d.values.size then
    some (countNonZero (d.values.extract (d.pos rl) (d.pos ru)))
  else
    none

def isEmpty (d : Dense α) : Bool := d.values.all isZero

/-- swap the dimension labels and move no data; the count becomes the upper bound -/
def swapDims (d : Dense α) : Dense α :=
  { rows := d.cols, cols := d.rows, values := d.values, nnz := d.cols * d.rows }

/-- put the cells of row `i` into column `i` of a transposed buffer -/
def writeColumn (d : Dense α) (out : Array α) (i : Nat) : Array α :=
  (d.row i).toList.zipIdx.foldl (fun out (v, j) => out.setIfInBounds (j * d.rows + i) v) out

/-- the transposed block; the count is carried over -/
def transpose (d : Dense α) : Dense α where
  rows := d.cols
  cols := d.rows
  values := (List.range d.rows).foldl d.writeColumn (Cell.zeros d.values.size)
  nnz := d.nnz

/-- the non-zero cells of row `i` with their columns, from left to right -/
def rowEntries (d : Dense α) (i : Nat) : List (Nat × α) :=
  (d.row i).toList.zipIdx.filterMap fun (v, j) => if isNonZero v then some (j, v) else none

/-! ### Blocks of floats -/

/-- a block filled cell by cell in row order; `f` makes the next cell and the next state -/
def unfold {σ : Type} (rows cols : Nat) (start : σ) (f : Nat → Nat → σ → α × σ) : Dense α :=
  let (values, _) := (List.range (rows * cols)).foldl
    (fun (values, s) k =>
      let (v, s) := f (k / cols) (k % cols) s
      (values.push v, s))
    ((#[] : Array α), start)
  ⟨rows, cols, values, countNonZero values⟩

/-- the per mille of cells that a density keeps -/
def keptPerMille (density : Float) : Nat :=
  let low := if density < 0 then 0 else density
  let cut := if 1 < low then 1 else low
  (cut * 1000).toUInt64.toNat

/-- whole numbers from -6 to 6 at about the given share of the cells, zeros elsewhere -/
def patterned (rows cols : Nat) (density : Float) : Dense Float :=
  let keep := keptPerMille density
  unfold rows cols () fun i j _ =>
    (if (i * 7919 + j * 104729) % 1000 < keep then Cell.ofNat ((i + 2 * j) % 13) - 6 else zero, ())

def nextState (s : UInt64) : UInt64 := s * 6364136223846793005 + 1442695040888963407

/-- quarters from -2.25 to 2.25 at about the given share of the cells, zeros elsewhere, drawn from a seed -/
def random (rows cols : Nat) (density : Float) (seed : UInt64) : Dense Float :=
  unfold rows cols (nextState seed) fun _ _ s =>
    let s := nextState s
    let u := (s >>> 33).toFloat / (2147483648 : UInt64).toFloat
    let v := ((s >>> 11) % 19).toFloat - 9
    (if u < density then (if v == 0 then 0.5 else v * 0.25) else zero, s)

/-- the larger of two floats; an operand that is not a number gives way to the other -/
def larger (a b : Float) : Float := if a.isNaN then b else if b.isNaN then a else if a < b then b else a

/-- two cells agree up to `tol` times the larger magnitude, which is at least one -/
def near (tol a b : Float) : Bool := (a - b).abs ≤ tol * larger (larger a.abs b.abs) 1

/-- equal dimensions and cells that agree up to a tolerance -/
def approxEq (a b : Dense Float) (tol : Float) : Bool :=
  a.rows == b.rows && a.cols == b.cols && (a.values.toList.zip b.values.toList).all fun (x, y) => near tol x y

end Dense

/-! ## Changes -/

/-- changes of a dense block, as a caller makes them -/
inductive DenseOp (α : Type) where
  | set (i j : Nat) (v : α)
  | put (k : Nat) (v : α)
  | reset (rows cols : Nat)
  | withCount (nnz : Nat)
  | recount
  | swapDims
  | transpose

namespace DenseOp

/-- the block after a change; `none` if the change addresses a cell outside the buffer -/
def apply {α : Type} [Cell α] (d : Dense α) : DenseOp α → Option (Dense α)
  | set i j v => if d.holds i j then some (d.set i j v) else none
  | put k v => if k < d.values.size then some (d.put k v) else none
  | reset rows cols => some (Dense.zeros rows cols)
  | withCount nnz => some (d.withCount nnz)
  | recount => some d.recount
  | swapDims => some d.swapDims
  | transpose => some d.transpose

end DenseOp

end MatrixEngine
