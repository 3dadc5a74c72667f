/-
Kernels that show how a run proceeds: which rows are visited, where a failure strikes, and which scratch vectors are
lent.
-/
import MatrixEngine.Rowwise.Kernel

namespace MatrixEngine.Kernel

open Cell

variable {α : Type} [Cell α] [DecidableEq α]

def rowNumber (row : Nat) : α := Cell.ofNat row + Cell.ofNat 1

/-- put the number of the row into its output cell -/
def rowIndex : Kernel α where
  step _ v ci := RowM.write (.cell ci fun _ => rowNumber v.row)

/-- put the row sum, and fail from row `start` on -/
def failFrom (start : Nat) : Kernel α where
  step _ v ci := do
    if start ≤ v.row then RowM.fault (.row v.row "injected failure")
    RowM.write (.cell ci fun _ => Cell.sum v.data.values.toList)

/-- add the number of the row to its output cell, if there is one -/
def trace : Kernel α where
  step _ v ci {cells} := if ci < cells then RowM.write (.cell ci (· + rowNumber v.row)) else pure ()

/-- add the row sum and one to the first cell of a scratch vector, and add that cell to the output -/
def probe (reset : Bool) : Kernel α where
  step env v ci := do
    let slot ← RowM.scratchVector (env.n2.getD env.n) reset
    RowM.writeScratch slot (.cell 0 (· + (Cell.sum v.data.values.toList + Cell.ofNat 1)))
    let buffer ← RowM.readScratch slot
    let first ← RowM.inBounds buffer[0]?
    RowM.write (.cell ci (· + first))

end MatrixEngine.Kernel
