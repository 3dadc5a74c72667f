/-
Compressed blocks: the columns are cut into groups of neighbours, and each group stores its distinct row tuples once
and a code per row.

`RowCursor` walks a range of rows and decodes them in batches. Decoding gives back the cells bit by bit, and the
cursor returns the rows of its range in order.
-/
import MatrixEngine.Block.Dense
import MatrixEngine.Number.Basic

namespace MatrixEngine

open Cell

/-- neighbouring columns with their distinct tuples in order of first appearance -/
structure ColumnGroup (α : Type) where
  cols : Array Nat
  tuples : Array (Array α)
  codes : Array Nat
  deriving DecidableEq, Repr

/-- the rows of a group on their way into codes: an index of the tuples met so far with their codes, the dictionary, and
the codes of the rows -/
structure Coder (α : Type) where
  index : List (Array α × Nat)
  tuples : Array (Array α)
  codes : Array Nat

namespace Coder

variable {α : Type} [DecidableEq α]

/-- most tuples a dictionary can number -/
def capacity : Nat := 0x100000000

/-- code the next row; a tuple that the index does not have is numbered and added to the dictionary -/
def addRow (coder : Coder α) (tuple : Array α) : Except BlockError (Coder α) :=
  match coder with
  | ⟨index, tuples, codes⟩ =>
    match index.lookup tuple with
    | some c => .ok ⟨index, tuples, codes.push c⟩
    | none =>
      let c := index.length
      if c < capacity then .ok ⟨(tuple, c) :: index, tuples.push tuple, codes.push c⟩ else .error .dictionaryFull

end Coder

namespace ColumnGroup

variable {α : Type} [Cell α] [DecidableEq α]

/-- the cells of row `i` in the given columns -/
def tupleOf (d : Dense α) (cols : Array Nat) (i : Nat) : Array α :=
  cols.map fun j => (d.get? i j).getD zero

def encode (d : Dense α) (cols : Array Nat) : Except BlockError (ColumnGroup α) := do
  let coder ← (List.range d.rows).foldlM (fun (coder : Coder α) i => coder.addRow (tupleOf d cols i)) ⟨[], #[], #[]⟩
  return ⟨cols, coder.tuples, coder.codes⟩

def tuple? (g : ColumnGroup α) (i : Nat) : Option (Array α) := do
  let c ← g.codes[i]?
  g.tuples[c]?

/-- write the cells of row `i` into a row buffer -/
def writeRow (g : ColumnGroup α) (i : Nat) (out : Array α) : Array α :=
  (g.cols.toList.zip ((g.tuple? i).getD #[]).toList).foldl (fun out (j, v) => out.setIfInBounds j v) out

def nnz (g : ColumnGroup α) : Nat :=
  (List.range g.codes.size).foldl (fun n i => n + countNonZero ((g.tuple? i).getD #[])) 0

end ColumnGroup

/-- a block as column groups, with its exact count of non-zero cells -/
structure Compressed (α : Type) where
  rows : Nat
  cols : Nat
  groups : List (ColumnGroup α)
  nnz : Nat
  deriving DecidableEq, Repr

namespace Compressed

variable {α : Type} [Cell α] [DecidableEq α]

/-- the columns `start, …, cols - 1` in runs of `width`; the last run may be shorter -/
def runsFrom (cols width start : Nat) : List (Array Nat) :=
  if _h : start < cols ∧ 0 < width then
    Array.range' start (min (start + width) cols - start) :: runsFrom cols width (min (start + width) cols)
  else
    []
termination_by cols - start
decreasing_by omega

/-- all columns in runs of `width` -/
def columnRuns (cols width : Nat) : List (Array Nat) := runsFrom cols width 0

/-- code a dense block in groups of `width` columns -/
def ofDense (d : Dense α) (width : Nat) : Except BlockError (Compressed α) := do
  if width = 0 then throw .zeroWidth
  let groups ← (columnRuns d.cols width).mapM (ColumnGroup.encode d)
  return ⟨d.rows, d.cols, groups, total (groups.map (·.nnz))⟩

def isEmpty (c : Compressed α) : Bool := c.nnz == 0

/-- cell `(i, j)`; a column that no group covers reads as zero, whatever the row -/
def get? (c : Compressed α) (i j : Nat) : Option α :=
  match c.groups.find? (fun g => g.cols.contains j) with
  | none => some zero
  | some g => do
    let t ← g.tuple? i
    let k ← g.cols.idxOf? j
    t[k]?

def row (c : Compressed α) (i : Nat) : Array α :=
  c.groups.foldl (fun out g => g.writeRow i out) (Cell.zeros c.cols)

/-- all cells; the stored count is carried over -/
def toDense (c : Compressed α) : Dense α where
  rows := c.rows
  cols := c.cols
  values := (List.range c.rows).foldl (fun out i => out ++ c.row i) #[]
  nnz := c.nnz

end Compressed

/-- a walk over the rows of a compressed block that decodes a batch of rows at a time: the rows of the batch lie end to
end in the buffer -/
structure RowCursor (α : Type) where
  block : Compressed α
  position : Nat
  stop : Nat
  batchStart : Nat
  batchLength : Nat
  buffer : Array α

namespace RowCursor

variable {α : Type} [Cell α] [DecidableEq α]

/-- rows decoded per refill -/
def batchRows : Nat := 32

/-- a cursor over rows `rl, …, min ru rows - 1` -/
def ofRange (c : Compressed α) (rl ru : Nat) : RowCursor α := ⟨c, rl, min ru c.rows, rl, 0, #[]⟩

/-- decode the batch that begins at the current position in place of the last one; at the end it may be short -/
def refill (cur : RowCursor α) : RowCursor α :=
  let length := min batchRows (cur.stop - cur.position)
  { cur with
    batchStart := cur.position
    batchLength := length
    buffer := (List.range length).foldl (fun buffer r => buffer ++ cur.block.row (cur.position + r)) #[] }

/-- the next row and the cursor behind it, or nothing at the end -/
def next? (cur : RowCursor α) : Option (Array α × RowCursor α) :=
  if cur.position < cur.stop then
    let cur := if cur.batchStart + cur.batchLength ≤ cur.position then cur.refill else cur
    let start := (cur.position - cur.batchStart) * cur.block.cols
    some (cur.buffer.extract start (start + cur.block.cols), { cur with position := cur.position + 1 })
  else
    none

def take : Nat → RowCursor α → List (Array α) × RowCursor α
  | 0, cur => ([], cur)
  | n + 1, cur =>
    match cur.next? with
    | none => ([], cur)
    | some (r, cur') =>
      let (rows, last) := take n cur'
      (r :: rows, last)

def drain (cur : RowCursor α) : List (Array α) × RowCursor α := cur.take (cur.stop - cur.position)

end RowCursor

end MatrixEngine
