/-
The reorganisations: transpose, vector to diagonal matrix, and diagonal of a matrix to a column.

Each kind has a shape formula and a size formula over what is known of its input.
-/
import MatrixEngine.Plan.Size

namespace MatrixEngine

/-- kinds of reorganisation -/
inductive Reorg where
  | transpose
  | diagToMatrix
  | diagToVector
  deriving DecidableEq, Repr

namespace Reorg

/-- inputs a node of this kind must have -/
def arity (_ : Reorg) : Nat := 1

/-- the name on paper -/
def label : Reorg → String
  | transpose => "r(t)"
  | diagToMatrix => "r(diagV2M)"
  | diagToVector => "r(diagM2V)"

/-- the name in documents -/
def name : Reorg → String
  | transpose => "transpose"
  | diagToMatrix => "diag_v2m"
  | diagToVector => "diag_m2v"

/-- the name in reports of the direct operator -/
def title : Reorg → String
  | transpose => "Transpose"
  | diagToMatrix => "DiagV2M"
  | diagToVector => "DiagM2V"

def ofName? : String → Option Reorg
  | "transpose" => some transpose
  | "diag_v2m" => some diagToMatrix
  | "diag_m2v" => some diagToVector
  | _ => none

/-- rows, columns and non-zero count that follow from the input alone -/
def outputSize (op : Reorg) (input : SizeInfo) : Option Nat × Option Nat × Option Nat :=
  match op with
  | transpose => (input.cols, input.rows, input.nnz)
  | diagToMatrix =>
    let k := input.dims?.map fun (r, c) => max r c
    (k, k, input.nnz)
  | diagToVector => (input.rows, some 1, none)

/-- output bytes from the node's own dimensions and its input; none if either shape is unknown -/
def outputBytes? (op : Reorg) (own input : SizeInfo) : Option Nat := do
  let (rows, cols) ← own.dims?
  let (inRows, inCols) ← input.dims?
  return match op with
    | transpose =>
      let sparsity : Float := match input.nnz with
        | some nnz =>
          if 0 < nnz ∧ 0 < saturatingMul inRows inCols then
            CostNumber.ofNat nnz / (CostNumber.ofNat inRows * CostNumber.ofNat inCols)
          else CostNumber.ofNat 1
        | none => CostNumber.ofNat 1
      Cost.ofDensity rows cols sparsity
    | diagToMatrix => Cost.ofDensity rows cols (CostNumber.ofNat 1 / CostNumber.ofNat (max rows 1) : Float)
    | diagToVector => Cost.estimate Float rows cols none

end Reorg

end MatrixEngine
