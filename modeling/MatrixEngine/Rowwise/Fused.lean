/-
The fused row-wise operator: one kernel run over every row of the primary input, with the output shaped by a row
type.

A run visits the rows of its range in order. Row-writing types give each row its own slice of the output; the other
types let every row accumulate into the same cells. A serial run works in the caller's register. A parallel run cuts
the rows into tasks with output cells of their own and puts these together in task order, so that
both runs can be compared cell by cell, whatever the representation of the input.
-/
import MatrixEngine.Rowwise.Kernel
import MatrixEngine.Rowwise.RowType
import MatrixEngine.Rowwise.Tasks

namespace MatrixEngine

open Cell

/-- a kernel with the row type it serves, how many scratch vectors it needs per length, and the run settings -/
structure Fused (α : Type) where
  rowType : RowType
  kernel : Kernel α
  constDim2 : Option Nat := none
  transposeB1 : Bool := false
  vectors : Nat := 0
  config : RunConfig

/-- an operator's inputs made ready: the primary block, what its rows share, and the output's shape -/
structure Prepared (α : Type) where
  main : Block α
  env : KernelEnv α
  rows : Nat
  cols : Nat
  flip : Bool

/-- the rows of one task, where its output begins in rows, and how many output cells it has -/
structure Task where
  range : RowRange
  base : Nat
  cells : Nat
  deriving DecidableEq, Repr

/-- a call of the kernel: the row, the offset of its output, and the number of output cells -/
structure Call (α : Type) where
  visit : Visit α
  offset : Nat
  cells : Nat

/-- the caller's output block and scratch vectors -/
structure Register (α : Type) where
  out : Dense α
  scratch : Scratch α

/-- how a serial run treats the register: use its scratch vectors, and accumulate onto its output -/
structure RunOptions where
  useScratch : Bool := false
  incremental : Bool := false
  deriving DecidableEq, Repr

namespace Fused

variable {α : Type} [Cell α] [DecidableEq α]

def secondDim (op : Fused α) (inputs : List (Block α)) : Option Nat :=
  if op.rowType.fixesDim2 op.constDim2 then op.constDim2
  else if op.rowType.usesB1 || SideInput.anyMatrix inputs then some (SideInput.minCols inputs)
  else none

def outputShape (op : Fused α) (inputs : List (Block α)) : Except ArgumentFault (Nat × Nat) :=
  match inputs with
  | [] => .error .noInputs
  | a :: _ =>
    let n2 := op.secondDim inputs
    match op.rowType.outputShape a.rows a.cols n2 op.constDim2 with
    | some shape => .ok shape
    | none => .error (.noSecondDimension op.rowType.label n2 op.constDim2)

def prepare (op : Fused α) (inputs : List (Block α)) (scalars : List α) : Except ArgumentFault (Prepared α) := do
  match inputs with
  | [] => throw .noInputs
  | a :: _ =>
    let (rows, cols) ← op.outputShape inputs
    return {
      main := a
      env := {
        side := SideInput.ofInputs inputs op.transposeB1
        scalars := scalars
        n := a.cols
        n2 := op.secondDim inputs }
      rows := rows
      cols := cols
      flip := op.rowType.isOuterB1 && Write.flipsOuter rows cols }

/-- where the output of a row begins -/
def offset (op : Fused α) (cols base row : Nat) : Nat :=
  if op.rowType.writesRows then (row - base) * cols else 0

def calls (op : Fused α) (p : Prepared α) (t : Task) : List (Call α) :=
  (p.main.visits t.range).map fun v => ⟨v, op.offset p.cols t.base v.row, t.cells⟩

def runRows (op : Fused α) (p : Prepared α) (range : RowRange) (base : Nat) {cells : Nat} : RowM α cells Unit :=
  (p.main.visits range).forM fun v => op.kernel.step p.env v (op.offset p.cols base v.row)

/-- scratch vectors for one task, from a budget of its own -/
def taskScratch (op : Fused α) (env : KernelEnv α) : Except MemoryError (Scratch α) :=
  if op.vectors = 0 then .ok .empty
  else (Scratch.acquire (.ofCapacity op.config.scratchBytes) op.vectors env.n env.n2).map (·.1)

/-! ## Serial runs -/

/-- the one task of a serial run -/
def serialTask (p : Prepared α) : Task := ⟨⟨0, p.main.rows⟩, 0, p.rows * p.cols⟩

/-- the output block as the kernel finds it: fresh, or the old values in the layout the kernel writes -/
def openOutput (p : Prepared α) (incremental : Bool) (out : Dense α) : Dense α :=
  if !incremental || out.rows ≠ p.rows || out.cols ≠ p.cols then .zeros p.rows p.cols
  else if p.flip then out.transpose.swapDims
  else out

/-- the output block as the caller finds it: unflipped, with its count -/
def closeOutput (p : Prepared α) (incremental : Bool) (out : Dense α) : Dense α :=
  let out := if p.flip then out.swapDims.transpose else out
  if incremental then out.withCount (p.rows * p.cols) else out.recount

/-- run the kernel over all rows with a dense block for output -/
def runOver (op : Fused α) (p : Prepared α) (out : Dense α) (scratch : Scratch α) :
    EStateM.Result (Stop KernelError) (Register α) Unit :=
  match out with
  | ⟨rows, cols, values, nnz⟩ =>
    match op.runRows p ⟨0, p.main.rows⟩ 0 (⟨values.toVector, scratch⟩ : RowState α values.size) with
    | .ok () s => .ok () ⟨⟨rows, cols, s.out.toArray, nnz⟩, s.scratch⟩
    | .error e s => .error e ⟨⟨rows, cols, s.out.toArray, nnz⟩, s.scratch⟩

def liftStop : Stop KernelError → Stop RunError
  | .fault e => .fault (.kernel e)
  | .outOfBounds => .outOfBounds

/-- a serial run in the register; after a failure the register stays as it is at that point -/
def runSerial (op : Fused α) (p : Prepared α) (opts : RunOptions) :
    EStateM (Stop RunError) (Register α) Unit := fun reg =>
  match reg with
  | ⟨out, own⟩ =>
    let out := openOutput p opts.incremental out
    match if opts.useScratch then .ok own else op.taskScratch p.env with
    | .error e => .error (.fault (.memory e)) ⟨out, own⟩
    | .ok scratch =>
      match op.runOver p out scratch with
      | .ok () ⟨out, used⟩ => .ok () ⟨closeOutput p opts.incremental out, if opts.useScratch then used else own⟩
      | .error e ⟨out, used⟩ => .error (liftStop e) ⟨out, if opts.useScratch then used else own⟩

def executeInto (op : Fused α) (inputs : List (Block α)) (scalars : List α) (opts : RunOptions) :
    EStateM (Stop RunError) (Register α) Unit := fun reg =>
  match op.prepare inputs scalars with
  | .error e => .error (.fault (.argument e)) reg
  | .ok p => op.runSerial p opts reg

def runFresh (op : Fused α) (p : Prepared α) : Except (Stop RunError) (Dense α) :=
  match op.runSerial p {} ⟨.zeros 0 0, .empty⟩ with
  | .ok () reg => .ok reg.out
  | .error e _ => .error e

def execute (op : Fused α) (inputs : List (Block α)) (scalars : List α) : Except (Stop RunError) (Dense α) :=
  match op.prepare inputs scalars with
  | .error e => .error (.fault (.argument e))
  | .ok p => op.runFresh p

/-! ## Parallel runs -/

/-- the accumulators of `k` tasks fit the memory set aside for them -/
def accumulatorsFit (op : Fused α) (p : Prepared α) (k : Nat) : Bool :=
  wrapped (8 * (p.rows * p.cols) * k) ≤ op.config.parallelColumnBytes

/-- the number of tasks at a time that is granted when `k` are asked for -/
def grantedTasks (op : Fused α) (k : Nat) : Nat := min k (max op.config.maxTasks 1)

def totalCells (inputs : List (Block α)) : Nat := wrapped (total (inputs.map (·.cells)))

/-- whether a parallel run with `k` tasks at a time is not worthwhile -/
def fallsBack (op : Fused α) (p : Prepared α) (inputs : List (Block α)) (k : Nat) : Bool :=
  k ≤ 1 || (op.rowType.isColumnAgg && !op.accumulatorsFit p k) || totalCells inputs < op.config.parallelCells

/-- the task of a row range in a parallel run -/
def taskOf (op : Fused α) (p : Prepared α) (r : RowRange) : Task :=
  if op.rowType.aggregates then ⟨r, 0, p.rows * p.cols⟩ else ⟨r, r.start, r.size * p.cols⟩

def parallelTasks (op : Fused α) (p : Prepared α) (k : Nat) : Option (List Task) :=
  (Partition.plan? p.main k op.config).map (·.map (op.taskOf p))

/-- run one task on output cells of its own and return them -/
def runTask (op : Fused α) (p : Prepared α) (t : Task) : TaskGroup.Outcome (Array α) :=
  match op.taskScratch p.env with
  | .error e => .error (.fault (.scratch e))
  | .ok scratch =>
    match op.runRows p t.range t.base (RowState.zeros t.cells scratch) with
    | .ok () s => .ok s.out.toArray
    | .error e _ => .error e

/-- add up the accumulators of all tasks, in task order -/
def mergeAccumulators (p : Prepared α) (parts : List (Array α)) : Dense α :=
  let zeros : Vector α (p.rows * p.cols) := ⟨Cell.zeros (p.rows * p.cols), by simp⟩
  let total := parts.foldl (fun c part => (Write.add part 0).apply c) zeros
  let out : Dense α := ⟨p.rows, p.cols, total.toArray, 0⟩
  (if p.flip then out.swapDims.transpose else out).recount

def joinSlices (p : Prepared α) (parts : List (Array α)) : Dense α :=
  ⟨p.rows, p.cols, parts.foldl (· ++ ·) #[], total (parts.map countNonZero)⟩

def runTasks (op : Fused α) (p : Prepared α) (k : Nat) : Except (Stop RunError) (Dense α) :=
  match op.parallelTasks p k with
  | none => .error .outOfBounds
  | some tasks => do
    let parts ← (TaskGroup.ofCount k).run tasks fun _ t => op.runTask p t
    return if op.rowType.aggregates then mergeAccumulators p parts else joinSlices p parts

/-- run with at most `k` tasks at a time -/
def executeParallel (op : Fused α) (inputs : List (Block α)) (scalars : List α) (k : Nat) :
    Except (Stop RunError) (Dense α) :=
  match op.prepare inputs scalars with
  | .error e => .error (.fault (.argument e))
  | .ok p =>
    let k := op.grantedTasks k
    if op.fallsBack p inputs k then op.runFresh p else op.runTasks p k

/-- the one cell of a full aggregation -/
def executeScalar (op : Fused α) (inputs : List (Block α)) (scalars : List α) (k : Nat) :
    Except (Stop RunError) α := do
  if op.rowType ≠ .fullAgg then throw (.fault (.argument (.notScalar op.rowType.label)))
  let out ← if 1 < k then op.executeParallel inputs scalars k else op.execute inputs scalars
  match out.get? 0 0 with
  | some v => return v
  | none => throw .outOfBounds

/-- the kernel calls that a run with `k` tasks at a time makes, or a serial run for none -/
def schedule (op : Fused α) (inputs : List (Block α)) (scalars : List α) (k : Option Nat) : List (Call α) :=
  match op.prepare inputs scalars with
  | .error _ => []
  | .ok p =>
    let serial := op.calls p (serialTask p)
    match k with
    | none => serial
    | some k =>
      let k := op.grantedTasks k
      if op.fallsBack p inputs k then serial
      else ((op.parallelTasks p k).getD []).flatMap (op.calls p)

end Fused

end MatrixEngine
