/-
Row kernels: the work done for one row of the primary input.

A kernel sees one row, as dense cells or as sparse entries, with the number of the row and the offset of its output.
It runs in `RowM`, which holds the output cells of the task and its scratch vectors. The number of output cells is
part of the type, so no kernel can change it. A kernel stops by a fault of its own or by addressing a cell that is
not there.

Dense rows come as cells, sparse rows as entries, and compressed rows as cells decoded by a cursor. A sparse row
without entries, and every row of an empty compressed block, still comes, with nothing in it (`Block.visits`).
-/
import MatrixEngine.Memory.Scratch
import MatrixEngine.Rowwise.Partition
import MatrixEngine.Rowwise.SideInput
import MatrixEngine.Rowwise.Write

namespace MatrixEngine

open Cell

inductive KernelError where
  | row (number : Nat) (message : String)
  | missingSideInput (index count : Nat)
  | scratch (source : MemoryError)
  deriving DecidableEq, Repr

def KernelError.message : KernelError → String
  | .row number message => s!"row {number}: {message}"
  | .missingSideInput index count => s!"side input {index} requested, {count} available"
  | .scratch source => source.message

/-- a stop of a run: a stated fault, or an access outside of a buffer -/
inductive Stop (ε : Type) where
  | fault (e : ε)
  | outOfBounds
  deriving DecidableEq, Repr

/-- a row of the primary input -/
inductive RowData (α : Type) where
  | dense (cells : Array α)
  | sparse (cells : Array α) (cols : Array Nat)
  deriving DecidableEq, Repr

def RowData.values {α : Type} : RowData α → Array α
  | dense cells => cells
  | sparse cells _ => cells

structure Visit (α : Type) where
  row : Nat
  data : RowData α
  deriving DecidableEq, Repr

/-- what all rows of a run share: side inputs, scalars, the length of a row, and the second output dimension -/
structure KernelEnv (α : Type) where
  side : List (SideInput α)
  scalars : List α
  n : Nat
  n2 : Option Nat

/-- the output cells and scratch vectors of a task -/
structure RowState (α : Type) (cells : Nat) where
  out : Vector α cells
  scratch : Scratch α

namespace RowState

variable {α : Type} [Cell α] (cells : Nat) (scratch : Scratch α)

/-- output cells that are zero, and scratch vectors -/
def zeros : RowState α cells := ⟨⟨Cell.zeros cells, Cell.size_zeros cells⟩, scratch⟩

@[simp] theorem out_zeros : (zeros cells scratch).out.toArray = Cell.zeros cells := rfl

@[simp] theorem scratch_zeros : (zeros cells scratch).scratch = scratch := rfl

end RowState

/-- a step over the output cells and scratch vectors of a task -/
abbrev RowM (α : Type) (cells : Nat) := EStateM (Stop KernelError) (RowState α cells)

/-- the work done for a row, given the offset of its output -/
structure Kernel (α : Type) where
  step : KernelEnv α → Visit α → Nat → {cells : Nat} → RowM α cells Unit

namespace RowM

variable {α : Type} [Cell α] {cells : Nat}

def fault {β : Type} (e : KernelError) : RowM α cells β := throw (.fault e)

/-- the value, or a stop if it lies outside -/
def inBounds {β : Type} : Option β → RowM α cells β
  | some b => pure b
  | none => throw .outOfBounds

/-- change the output, if all cells addressed are there -/
def write (w : Write α) : RowM α cells Unit := fun s =>
  match s with
  | ⟨out, scratch⟩ => if w.fits cells then .ok () ⟨w.apply out, scratch⟩ else .error .outOfBounds ⟨out, scratch⟩

/-- the next scratch vector of a length, zeroed on demand -/
def scratchVector (len : Nat) (reset : Bool) : RowM α cells Slot := fun s =>
  match s with
  | ⟨out, scratch⟩ =>
    match scratch.request len reset with
    | .ok (slot, scratch) => .ok slot ⟨out, scratch⟩
    | .error e => .error (.fault (.scratch e)) ⟨out, scratch⟩

def readScratch (slot : Slot) : RowM α cells (Array α) := fun s => .ok (s.scratch.read slot) s

/-- change the content of a scratch vector, if all cells addressed are there -/
def writeScratch (slot : Slot) (w : Write α) : RowM α cells Unit := fun s =>
  match s with
  | ⟨out, scratch⟩ =>
    if w.fits (scratch.read slot).size then
      .ok () ⟨out, scratch.modify slot fun v => (w.apply v.toVector).toArray⟩
    else
      .error .outOfBounds ⟨out, scratch⟩

end RowM

/-- the side input of an index, or the fault that it is missing -/
def KernelEnv.sideInput {α : Type} [Cell α] {cells : Nat} (env : KernelEnv α) (index : Nat) :
    RowM α cells (SideInput α) :=
  match env.side[index]? with
  | some s => pure s
  | none => RowM.fault (.missingSideInput index env.side.length)

/-! ## The rows of a block -/

variable {α : Type} [Cell α] [DecidableEq α]

namespace Visit

/-- a row without entries -/
def vacant (i : Nat) : Visit α := ⟨i, .sparse #[] #[]⟩

def ofDense (d : Dense α) (i : Nat) : Visit α := ⟨i, .dense (d.row i)⟩

def ofSparse (s : Sparse α) (i : Nat) : Visit α :=
  if s.isEmptyRow i then vacant i else ⟨i, .sparse (s.rowValues i) (s.rowIndexes i)⟩

/-- rows numbered from `start` on -/
def numbered (start : Nat) (rows : List (Array α)) : List (Visit α) :=
  (rows.zipIdx start).map fun (cells, i) => ⟨i, .dense cells⟩

end Visit

def RowRange.rows (r : RowRange) : List Nat := List.range' r.start r.size

/-- the rows of a range in order -/
def Block.visits (b : Block α) (r : RowRange) : List (Visit α) :=
  match b with
  | .dense d => r.rows.map (Visit.ofDense d)
  | .sparse s => r.rows.map (Visit.ofSparse s)
  | .compressed c =>
    if c.isEmpty then r.rows.map Visit.vacant
    else Visit.numbered r.start (RowCursor.ofRange c r.start r.stop).drain.1

end MatrixEngine
