/-
One kernel per row type: scaled copies, products with B1, row sums, column sums and outer products.

Each kernel has a dense and a sparse form. The scalar, where one is used, is the first of the run. The kernels behind the
command line (`demo?`) make do without a scalar.
-/
import MatrixEngine.Rowwise.Kernel
import MatrixEngine.Rowwise.RowType

namespace MatrixEngine.Kernel

open Cell

variable {α : Type} [Cell α] [DecidableEq α] {cells : Nat}

/-- columns that `constSpread` writes -/
def spreadCols : Nat := 3

def firstScalar (env : KernelEnv α) : RowM α cells α := RowM.inBounds env.scalars.head?

/-- row `row` of the first side input, which must be dense -/
def denseSideRow (env : KernelEnv α) (row : Nat) : RowM α cells (Array α) := do
  let b ← env.sideInput 0
  match b.denseRow? row with
  | some r => RowM.inBounds r
  | none => RowM.fault (.row row "dense side input expected")

/-- the first `n2` cells of a row of a side input -/
def sideCells (b : SideInput α) (row n2 : Nat) : RowM α cells (Array α) :=
  RowM.inBounds ((Array.range n2).mapM fun k => b.get? row k)

def scale : Kernel α where
  step env v ci := do
    match v.data with
    | .dense a =>
      let s ← firstScalar env
      RowM.write (.multPut a s ci)
    | .sparse vals cols =>
      RowM.write (.putSparse (sparseEntries cols vals) env.n ci)
      if 0 < env.n then
        let s ← firstScalar env
        RowM.write (Write.all ((List.range env.n).map fun k => .cell (ci + k) (· * s)))

/-- add the products of row entries with the rows of B1 that they meet -/
def addTimesB1 (b : SideInput α) (entries : List (Nat × α)) (ci : Nat) : RowM α cells Unit :=
  entries.forM fun (j, a) => do
    let row ← sideCells b j b.cols
    RowM.write (.window (fun c x => c + a * x) row ci)

def timesB1 : Kernel α where
  step env v ci := do
    let b ← env.sideInput 0
    match v.data with
    | .dense a => addTimesB1 b ((denseEntries a).filter (isNonZero ·.2)) ci
    | .sparse vals cols => addTimesB1 b (sparseEntries cols vals) ci

/-- the sum of a row spread over a fixed number of columns, scaled by 1, 2, … -/
def constSpread : Kernel α where
  step _ v ci :=
    let s := Cell.sum v.data.values.toList
    RowM.write (Write.all ((List.range spreadCols).map fun k => .cell (ci + k) (· + s * Cell.ofNat (k + 1))))

def rowSum : Kernel α where
  step _ v ci := RowM.write (.cell ci (· + Cell.sum v.data.values.toList))

def scaledColSum : Kernel α where
  step env v ci := do
    let s ← firstScalar env
    match v.data with
    | .dense a => RowM.write (.multAdd a s ci)
    | .sparse vals cols => RowM.write (.multAddSparse (sparseEntries cols vals) s ci)

/-- the outer product of a row of B1 with the row; a sparse row is laid out in a scratch vector first -/
def outerB1 : Kernel α where
  step env v ci := do
    let b ← denseSideRow env v.row
    match v.data with
    | .dense a => RowM.write (.outer b a ci)
    | .sparse vals cols =>
      let slot ← RowM.scratchVector env.n true
      RowM.writeScratch slot (.points (fun _ x => x) (sparseEntries cols vals) 0)
      let a ← RowM.readScratch slot
      RowM.write (.outer b a ci)

def outerB1T : Kernel α where
  step env v ci := do
    let b ← denseSideRow env v.row
    match v.data with
    | .dense a => RowM.write (.outer a b ci)
    | .sparse vals cols => RowM.write (.outerSparse (sparseEntries cols vals) env.n b ci)

/-- row `k` of a dense side input; a sparse one reads as empty rows -/
def denseRowOrEmpty (b : SideInput α) (k : Nat) : RowM α cells (Array α) :=
  match b.denseRow? k with
  | some r => RowM.inBounds r
  | none => pure #[]

/-- the products of the row with the rows of a transposed B1, added up -/
def timesB1T : Kernel α where
  step env v ci := do
    let b ← env.sideInput 0
    (List.range b.rows).forM fun k => do
      let col ← denseRowOrEmpty b k
      let product ← match v.data with
        | .dense a => pure (dot a col)
        | .sparse vals cols => RowM.inBounds (dotSparse? (sparseEntries cols vals) col)
      RowM.write (.cell (ci + k) (· + product))

/-- the kernel that serves a row type -/
def standard : RowType → Kernel α
  | .noAgg => scale
  | .noAggB1 => timesB1
  | .noAggConst | .colAggConst => constSpread
  | .fullAgg | .rowAgg => rowSum
  | .colAgg | .colAggT => scaledColSum
  | .colAggB1 => outerB1
  | .colAggB1T => outerB1T
  | .colAggB1R => timesB1T

/-! ## Kernels of the command line -/

/-- the first scalar, or one -/
def scalarOrOne (env : KernelEnv α) : α := env.scalars.head?.getD (Cell.ofNat 1)

/-- a row times the scalar; the cells without an entry become zeros -/
def demoScale : Kernel α where
  step env v ci :=
    let s := scalarOrOne env
    match v.data with
    | .dense a => RowM.write (.multPut a s ci)
    | .sparse vals cols =>
      RowM.write ((Write.clear ci env.n).andThen (.points (fun _ x => x * s) (sparseEntries cols vals) ci))

def demoColSum : Kernel α where
  step _ v ci :=
    match v.data with
    | .dense a => RowM.write (.add a ci)
    | .sparse vals cols => RowM.write (.addSparse (sparseEntries cols vals) ci)

/-- the kernel shown for a row type, if there is one -/
def demo? : RowType → Option (Kernel α)
  | .noAgg => some demoScale
  | .rowAgg | .fullAgg => some rowSum
  | .colAgg | .colAggT => some demoColSum
  | _ => none

end MatrixEngine.Kernel
