/-
What is known of a matrix before it is computed: dimensions, block sizes and the number of non-zero cells. Each of
the sizes may be unknown.

The bytes that a block takes are estimated from its sizes (`Cost`), in the format it would be held in: dense blocks pay
for every cell, sparse blocks for every row and every entry. The formulas are over any `CostNumber`, so that they run on
floats and can be compared over exact rationals.
-/
import MatrixEngine.Memory.Budget
import MatrixEngine.Text.Json

namespace MatrixEngine

/-- dimensions and non-zero count, as far as known, with the block sizes of a distributed matrix -/
structure SizeInfo where
  rows : Option Nat := none
  cols : Option Nat := none
  rowsInBlock : Nat
  colsInBlock : Nat
  nnz : Option Nat := none
  deriving DecidableEq, Repr

namespace SizeInfo

def unknown (block : Nat) : SizeInfo := { rowsInBlock := block, colsInBlock := block }

def dimsKnown (s : SizeInfo) : Bool := s.rows.isSome && s.cols.isSome

def nnzKnown (s : SizeInfo) : Bool := s.nnz.isSome

def dims? (s : SizeInfo) : Option (Nat × Nat) := do
  let r ← s.rows
  let c ← s.cols
  return (r, c)

/-- a row or a column for certain -/
def isVector (s : SizeInfo) : Bool := s.dims?.any fun (r, c) => r == 1 || c == 1

/-- number of cells as a 64-bit word -/
def cells? (s : SizeInfo) : Option Nat := s.dims?.map fun (r, c) => saturatingMul r c

/-- both dimensions known and at most `threshold` -/
def within (s : SizeInfo) (threshold : Nat) : Bool := s.dims?.any fun (r, c) => r ≤ threshold && c ≤ threshold

/-- a number or a question mark -/
def known (n : Option Nat) : String := (n.map toString).getD "?"

/-- dimensions, block sizes and non-zero count on paper -/
def label (s : SizeInfo) : String :=
  "[" ++ known s.rows ++ "x" ++ known s.cols ++ ", blk=" ++ toString s.rowsInBlock ++ "x" ++ toString s.colsInBlock
    ++ ", nnz=" ++ known s.nnz ++ "]"

def toJson (s : SizeInfo) : Json :=
  .object [("rows", .nat? s.rows), ("cols", .nat? s.cols), ("rows_in_block", .nat s.rowsInBlock),
    ("cols_in_block", .nat s.colsInBlock), ("nnz", .nat? s.nnz)]

end SizeInfo

/-! ## Byte sizes -/

/-- numbers in which sizes are estimated; `toWord` drops the fraction and stays within 64-bit words -/
class CostNumber (ν : Type) extends Add ν, Mul ν, Div ν where
  ofNat : Nat → ν
  less : ν → ν → Bool
  isZero : ν → Bool
  larger : ν → ν → ν
  smaller : ν → ν → ν
  ceil : ν → ν
  toWord : ν → Nat

/-- floats; an operand that is not a number gives way to the other -/
instance : CostNumber Float where
  ofNat n := (UInt64.ofNat n).toFloat
  less a b := a < b
  isZero a := a == Float.ofBits 0
  larger a b := if a.isNaN then b else if b.isNaN then a else if a < b then b else a
  smaller a b := if a.isNaN then b else if b.isNaN then a else if b < a then b else a
  ceil := Float.ceil
  toWord a := a.toUInt64.toNat

namespace Cost

open CostNumber

variable {ν : Type} [CostNumber ν]

/-- bytes of an empty block with its array -/
def headerBytes : Nat := 60

/-- bytes of one sparse row without entries -/
def sparseRowBytes : Nat := 116

/-- bytes of one sparse entry -/
def sparseEntryBytes : Nat := 12

/-- entries a sparse row has room for at least -/
def sparseRowCapacity : Nat := 4

/-- the density below which a block of several columns is held sparse -/
def turnPoint : ν := ofNat 2 / ofNat 5

def cells (rows cols : Nat) : ν := ofNat rows * ofNat cols

/-- bytes of a dense block, before rounding -/
def denseSize (rows cols : Nat) : ν := ofNat headerBytes + ofNat 8 * cells rows cols

/-- bytes of a sparse block of the given density, before rounding -/
def sparseSize (rows cols : Nat) (sparsity : ν) : ν :=
  let r : ν := ofNat rows
  let c : ν := ofNat cols
  let perRow := larger (ceil (sparsity * c)) (ofNat sparseRowCapacity)
  let filledRows := smaller r (ceil (sparsity * r * c))
  ofNat headerBytes + ofNat 8 * r + filledRows * (ofNat sparseRowBytes + ofNat sparseEntryBytes * perRow)

def dense (ν : Type) [CostNumber ν] (rows cols : Nat) : Nat := toWord (denseSize rows cols : ν)

def sparse (rows cols : Nat) (sparsity : ν) : Nat := toWord (sparseSize rows cols sparsity)

/-- whether a block with `nnz` entries would be held sparse -/
def heldSparse (ν : Type) [CostNumber ν] (rows cols nnz : Nat) : Bool :=
  let n : ν := cells rows cols
  if isZero n then false else 1 < cols && less (ofNat nnz / n) turnPoint

def clampDensity (sparsity : ν) : ν :=
  let low := if less sparsity (ofNat 0) then ofNat 0 else sparsity
  if less (ofNat 1) low then ofNat 1 else low

/-- bytes of a block of the given density, in the format it would be held in -/
def ofDensity (rows cols : Nat) (sparsity : ν) : Nat :=
  let sparsity := clampDensity sparsity
  let nnz := toWord (ceil (sparsity * ofNat rows * ofNat cols))
  if heldSparse ν rows cols nnz then sparse rows cols sparsity else dense ν rows cols

/-- bytes of a block whose number of entries may be unknown; unknown and zero are costed as dense -/
def estimate (ν : Type) [CostNumber ν] (rows cols : Nat) (nnz : Option Nat) : Nat :=
  let n : ν := cells rows cols
  let sparsity : ν := match nnz with
    | some k => if 0 < k ∧ less (ofNat 0) n then ofNat k / n else ofNat 1
    | none => ofNat 1
  ofDensity rows cols sparsity

end Cost

/-- the fraction of non-zero cells, if all sizes are known -/
def SizeInfo.sparsity? (s : SizeInfo) : Option Float := do
  let n ← s.cells?
  let nnz ← s.nnz
  return if n = 0 then CostNumber.ofNat 0 else CostNumber.ofNat nnz / CostNumber.ofNat n

end MatrixEngine
