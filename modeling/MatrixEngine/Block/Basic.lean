/-
A block in any of the three representations. Whatever the representation, the block stands for the same cells.

Digests of inputs and results are taken over the documents of blocks, so the fields of these and their order are fixed.
-/
import MatrixEngine.Block.Compressed
import MatrixEngine.Block.Sparse
import MatrixEngine.Number.Decimal
import MatrixEngine.Text.Json

namespace MatrixEngine

/-- a matrix in one of its physical representations -/
inductive Block (α : Type) where
  | dense (d : Dense α)
  | sparse (s : Sparse α)
  | compressed (c : Compressed α)
  deriving DecidableEq, Repr

namespace Block

variable {α : Type} [Cell α] [DecidableEq α]

def rows : Block α → Nat
  | dense d => d.rows
  | sparse s => s.rows
  | compressed c => c.rows

def cols : Block α → Nat
  | dense d => d.cols
  | sparse s => s.cols
  | compressed c => c.cols

/-- the stored count of non-zero cells -/
def nnz : Block α → Nat
  | dense d => d.nnz
  | sparse s => s.nnz
  | compressed c => c.nnz

def cells (b : Block α) : Nat := wrapped (b.rows * b.cols)

def isEmpty (b : Block α) : Bool := b.nnz == 0

def isVector (b : Block α) : Bool := b.rows == 1 || b.cols == 1

def isSparse : Block α → Bool
  | sparse _ => true
  | _ => false

def isCompressed : Block α → Bool
  | compressed _ => true
  | _ => false

/-- cell `(i, j)`, if the representation can address it -/
def get? : Block α → Nat → Nat → Option α
  | dense d, i, j => d.get? i j
  | sparse s, i, j => s.get? i j
  | compressed c, i, j => c.get? i j

def toDense : Block α → Dense α
  | dense d => d
  | sparse s => s.toDense
  | compressed c => c.toDense

def toSparse : Block α → Sparse α
  | sparse s => s
  | b => .ofDense b.toDense

end Block

/-! ## Documents -/

variable {α : Type} [CellText α]

/-- cells as numbers; what is no number is `null` -/
def cellsJson (vs : Array α) : Json := .array (vs.toList.map fun v => .number (CellText.text v))

def indexesJson (ns : Array Nat) : Json := .array (ns.toList.map .nat)

def Dense.toJson (d : Dense α) : Json :=
  .object [("rows", .nat d.rows), ("cols", .nat d.cols), ("values", cellsJson d.values), ("nnz", .nat d.nnz)]

def Sparse.toJson (s : Sparse α) : Json :=
  .object [("rows", .nat s.rows), ("cols", .nat s.cols), ("row_ptr", indexesJson s.starts),
    ("indexes", indexesJson s.indexes), ("values", cellsJson s.values)]

def ColumnGroup.toJson (g : ColumnGroup α) : Json :=
  .object [("cols", indexesJson g.cols), ("dict", cellsJson g.tuples.flatten), ("codes", indexesJson g.codes)]

def Compressed.toJson (c : Compressed α) : Json :=
  .object [("rows", .nat c.rows), ("cols", .nat c.cols), ("groups", .array (c.groups.map ColumnGroup.toJson)),
    ("nnz", .nat c.nnz)]

def Block.toJson : Block α → Json
  | .dense d => .object [("Dense", d.toJson)]
  | .sparse s => .object [("Sparse", s.toJson)]
  | .compressed c => .object [("Compressed", c.toJson)]

end MatrixEngine
