/-
Sparse blocks in compressed-row form: the entries of row `i` are those from `starts[i]` up to `starts[i + 1]`, with
ascending column indexes.

`ofParts` checks a layout given by a caller, `ofDense` drops the zeros of a dense block, and `transpose` counts the
entries per column before it places them.
-/
import MatrixEngine.Block.Dense

namespace MatrixEngine

open Cell

/-- entries of all rows back to back -/
structure Sparse (α : Type) where
  rows : Nat
  cols : Nat
  starts : Array Nat
  indexes : Array Nat
  values : Array α
  deriving DecidableEq, Repr

/-- running totals of `sizes`, beginning with `start` -/
def runningTotals (start : Nat) : List Nat → List Nat
  | [] => [start]
  | n :: rest => start :: runningTotals (start + n) rest

def strictlyAscending : List Nat → Bool
  | a :: b :: rest => a < b && strictlyAscending (b :: rest)
  | _ => true

def nonDecreasing : List Nat → Bool
  | a :: b :: rest => a ≤ b && nonDecreasing (b :: rest)
  | _ => true

/-- position of `x` in an ascending array, by halving the `size` candidates from `base` on -/
def bisect (xs : Array Nat) (x base size : Nat) : Option Nat :=
  if _h : 1 < size then
    let half := size / 2
    let mid := base + half
    if x < xs.getD mid 0 then bisect xs x base (size - half) else bisect xs x mid (size - half)
  else if xs[base]? = some x then some base else none
termination_by size
decreasing_by all_goals omega

namespace Sparse

variable {α : Type} [Cell α]

def empty (rows cols : Nat) : Sparse α := ⟨rows, cols, Array.replicate (rows + 1) 0, #[], #[]⟩

/-- from the entries of each row, `(column, value)` -/
def ofEntries (cols : Nat) (entries : List (List (Nat × α))) : Sparse α where
  rows := entries.length
  cols := cols
  starts := (runningTotals 0 (entries.map List.length)).toArray
  indexes := (entries.flatten.map (·.1)).toArray
  values := (entries.flatten.map (·.2)).toArray

def ofDense (d : Dense α) : Sparse α := ofEntries d.cols ((List.range d.rows).map d.rowEntries)

def nnz (s : Sparse α) : Nat := s.values.size

/-- where row `i` begins -/
def pos (s : Sparse α) (i : Nat) : Nat := s.starts.getD i 0

def size (s : Sparse α) (i : Nat) : Nat := s.pos (i + 1) - s.pos i

def isEmptyRow (s : Sparse α) (i : Nat) : Bool := s.pos i == s.pos (i + 1)

def rowValues (s : Sparse α) (i : Nat) : Array α := s.values.extract (s.pos i) (s.pos (i + 1))

def rowIndexes (s : Sparse α) (i : Nat) : Array Nat := s.indexes.extract (s.pos i) (s.pos (i + 1))

def rowEntries (s : Sparse α) (i : Nat) : List (Nat × α) :=
  (s.rowIndexes i).toList.zip (s.rowValues i).toList

/-- values and indexes of row `i`, if there is such a row -/
def row? (s : Sparse α) (i : Nat) : Option (Array α × Array Nat) :=
  if i + 1 < s.starts.size then some (s.rowValues i, s.rowIndexes i) else none

/-- cell `(i, j)`; zero where nothing is stored, none where there is no row -/
def get? (s : Sparse α) (i j : Nat) : Option α :=
  (s.row? i).map fun (vals, ix) => ((bisect ix j 0 ix.size).bind (vals[·]?)).getD zero

/-- entries in rows `rl, …, ru - 1` as the distance of their starts -/
def nnzRows? (s : Sparse α) (rl ru : Nat) : Option Nat := do
  let a ← s.starts[rl]?
  let b ← s.starts[ru]?
  return b - a

/-- the layout checks, in the order in which their failures are reported -/
def layoutFault? (rows cols : Nat) (starts indexes : Array Nat) (values : Array α) : Option BlockError :=
  if starts.size ≠ rows + 1 then some (.startCount (rows + 1) starts.size)
  else if indexes.size ≠ values.size ∨ starts.getD rows 0 ≠ values.size then some .partsDisagree
  else if !nonDecreasing starts.toList then some .startsDecrease
  else
    match indexes.find? (fun c => decide (cols ≤ c)) with
    | some c => some (.columnOutOfBounds c cols)
    | none =>
      ((List.range rows).find? fun i =>
        !strictlyAscending (indexes.extract (starts.getD i 0) (starts.getD (i + 1) 0)).toList).map
        .indexesNotAscending

/-- from parts given by a caller, if their layout is sound -/
def ofParts (rows cols : Nat) (starts indexes : Array Nat) (values : Array α) : Except BlockError (Sparse α) :=
  match layoutFault? rows cols starts indexes values with
  | some e => .error e
  | none => .ok ⟨rows, cols, starts, indexes, values⟩

/-- write the entries of row `i` into a row-major buffer -/
def writeRow (s : Sparse α) (out : Array α) (i : Nat) : Array α :=
  (s.rowEntries i).foldl (fun out (j, v) => out.setIfInBounds (i * s.cols + j) v) out

def toDense (s : Sparse α) : Dense α :=
  let values := (List.range s.rows).foldl s.writeRow (Cell.zeros (s.rows * s.cols))
  { rows := s.rows, cols := s.cols, values := values, nnz := countNonZero values }

/-- the entries of every row have their cells in the row-major buffer -/
def inBuffer (s : Sparse α) : Bool :=
  (List.range s.rows).all fun i => (s.rowEntries i).all fun (j, _) => i * s.cols + j < s.rows * s.cols

/-- all cells, unless an entry lies outside of the buffer -/
def toDense? (s : Sparse α) : Option (Dense α) := if s.inBuffer then some s.toDense else none

/-- how many indexes each column has; the count of column `j` stands at `j + 1` -/
def columnCounts (s : Sparse α) : Array Nat :=
  s.indexes.foldl (fun counts j => counts.modify (j + 1) (· + 1)) (Array.replicate (s.cols + 1) 0)

/-- the counts summed up from column to column: where the entries of each column begin in the transposed block -/
def columnStarts (s : Sparse α) : Array Nat :=
  (List.range s.cols).foldl (fun counts j =>
    let before := counts.getD j 0
    counts.modify (j + 1) (· + before)) s.columnCounts

end Sparse

/-- the entries of a block on their way into columns: the next free slot of each column, and what the slots hold -/
structure Slots (α : Type) where
  next : Array Nat
  indexes : Array Nat
  values : Array α

namespace Slots

variable {α : Type} [Cell α]

/-- `size` slots with a zero at row 0 each, and the first slot of each column -/
def vacant (starts : Array Nat) (size : Nat) : Slots α := ⟨starts, Array.replicate size 0, Cell.zeros size⟩

/-- put an entry of row `i`, `(column, value)`, into the next free slot of its column -/
def place (slots : Slots α) (i : Nat) (entry : Nat × α) : Slots α :=
  match slots with
  | ⟨next, indexes, values⟩ =>
    let k := next.getD entry.1 0
    ⟨next.modify entry.1 (· + 1), indexes.setIfInBounds k i, values.setIfInBounds k entry.2⟩

end Slots

namespace Sparse

variable {α : Type} [Cell α]

/-- the transposed block: the entries are counted by columns, and then put into the slots of their columns row by row -/
def transpose (s : Sparse α) : Sparse α :=
  let starts := s.columnStarts
  let slots := (List.range s.rows).foldl (fun slots i =>
    (s.rowEntries i).foldl (fun slots entry => slots.place i entry) slots) (Slots.vacant starts s.values.size)
  { rows := s.cols, cols := s.rows, starts := starts, indexes := slots.indexes, values := slots.values }

end Sparse

end MatrixEngine
