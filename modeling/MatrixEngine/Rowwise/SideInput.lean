/-
Side inputs: the operands beside the primary input, in the form in which row kernels read them.

Dense and sparse blocks are read as they are; compressed blocks are decoded; the first side input is transposed when
the operator consumes it that way. Whatever the form, the four ways of reading present the same cells.
-/
import MatrixEngine.Block.Basic

namespace MatrixEngine

open Cell

/-- an operand beside the primary input -/
inductive SideInput (α : Type) where
  | dense (d : Dense α)
  | sparse (s : Sparse α)
  deriving DecidableEq, Repr

namespace SideInput

variable {α : Type} [Cell α] [DecidableEq α]

def ofBlock (b : Block α) (transposed : Bool) : SideInput α :=
  match b, transposed with
  | .dense d, false => dense d
  | .dense d, true => dense d.transpose
  | .sparse s, false => sparse s
  | .sparse s, true => sparse s.transpose
  | .compressed c, false => dense c.toDense
  | .compressed c, true => dense c.toDense.transpose

/-- whether the side input holds cells of its own and not those of the block -/
def copies (b : Block α) (transposed : Bool) : Bool := transposed || b.isCompressed

def rows : SideInput α → Nat
  | dense d => d.rows
  | sparse s => s.rows

def cols : SideInput α → Nat
  | dense d => d.cols
  | sparse s => s.cols

def get? : SideInput α → Nat → Nat → Option α
  | dense d, i, j => d.get? i j
  | sparse s, i, j => s.get? i j

/-- a dense side input's row as it lies in the buffer; the inner option is for rows outside -/
def denseRow? : SideInput α → Nat → Option (Option (Array α))
  | dense d, i => some (d.row? i)
  | sparse _, _ => none

/-- all cells in row-major order, for a dense side input -/
def denseValues? : SideInput α → Option (Array α)
  | dense d => some d.values
  | sparse _ => none

/-- row `i` written over a buffer of `cols` cells, if there is such a row -/
def rowInto? (s : SideInput α) (i : Nat) (buffer : Array α) : Option (Array α) :=
  match s with
  | dense d => (d.row? i).filter fun r => r.size == buffer.size
  | sparse s => do
    let (vals, ix) ← s.row? i
    let entries := ix.toList.zip vals.toList
    if entries.all fun (j, _) => j < buffer.size then
      return entries.foldl (fun out (j, v) => out.setIfInBounds j v) (Cell.zeros buffer.size)
    else none

/-- the side inputs among the inputs of an operator; only the first one may be transposed -/
def ofInputs (inputs : List (Block α)) (transposeFirst : Bool) : List (SideInput α) :=
  match inputs.drop 1 with
  | [] => []
  | b :: rest => ofBlock b transposeFirst :: rest.map (ofBlock · false)

/-- column counts of the side inputs that are matrices and not vectors -/
def matrixCols (inputs : List (Block α)) : List Nat := ((inputs.drop 1).map (·.cols)).filter (1 < ·)

def anyMatrix (inputs : List (Block α)) : Bool := !(matrixCols inputs).isEmpty

/-- the smallest column count of a matrix among the side inputs, one if there is none -/
def minCols (inputs : List (Block α)) : Nat := (matrixCols inputs).min?.getD 1

end SideInput

end MatrixEngine
