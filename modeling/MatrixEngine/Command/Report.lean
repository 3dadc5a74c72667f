/-
Carrying out commands and what they print.

A command reads its graph through `Surroundings`, which also hold the environment and a clock, so that commands run
the same with and without a real machine around them. Lines that depend on the clock are kept apart from the others.
-/
import MatrixEngine.Block.Dense
import MatrixEngine.Command.Arguments
import MatrixEngine.Physical.Session
import MatrixEngine.Plan.Descriptor
import MatrixEngine.Rowwise.Fused
import MatrixEngine.Rowwise.Kernels.Standard

namespace MatrixEngine

/-- what a command finds around it: variables, the number of cores, files, and the time in microseconds -/
structure Surroundings (m : Type → Type) where
  environment : String → Option String
  cores : Nat
  fileText : String → m (Except String String)
  clock : m Nat

/-- a printed line; times are in microseconds -/
inductive ReportLine where
  | text (s : String)
  | duration (time : Nat)
  | serialTime (time : Nat)
  | parallelTime (time k : Nat)
  | started (time : Nat)
  | finished (time : Nat)
  deriving DecidableEq, Repr

inductive CommandError where
  | file (message : String)
  | unreadable
  | plan (e : PlanError)
  | eval (e : EvalError)
  | unknownDims (input : String)
  | noKernel (rowType : RowType)
  | rowwise (e : RunError)
  | outOfBounds
  deriving DecidableEq, Repr

def CommandError.message : CommandError → String
  | file message => message
  | unreadable => "invalid graph: not a graph description"
  | plan e => e.message
  | eval e => e.message
  | unknownDims input => s!"input '{input}' has unknown dims"
  | noKernel rowType => "no demo kernel for " ++ rowType.label
  | rowwise e => e.message
  | outOfBounds => "index out of bounds"

namespace ReportLine

/-- a time in milliseconds with three places, at least ten characters wide -/
def milliseconds (time : Nat) : String :=
  let places := toString (1000 + time % 1000)
  let text := toString (time / 1000) ++ "." ++ (places.drop 1).toString
  String.ofList (List.replicate (10 - text.length) ' ') ++ text

def render : ReportLine → String
  | text s => s
  | duration time => "  Duration: " ++ toString (time / 1000) ++ "ms"
  | serialTime time => "  serial:   " ++ milliseconds time ++ " ms"
  | parallelTime time k => "  parallel: " ++ milliseconds time ++ s!" ms (k={k})"
  | started time => "  \"started_ms\": " ++ toString (time / 1000) ++ ","
  | finished time => "  \"finished_ms\": " ++ toString (time / 1000)

/-- the lines of a text that ends its last line -/
def linesOf (s : String) : List ReportLine := (s.splitOn "\n").dropLast.map text

end ReportLine

namespace Command

abbrev CommandM (m : Type → Type) := ExceptT CommandError m

def check {m : Type → Type} [Monad m] {ε β : Type} (f : ε → CommandError) : Except ε β → CommandM m β
  | .ok b => pure b
  | .error e => throw (f e)

structure Planned where
  graph : Graph
  program : Program

/-- a description lowered under the settings of the environment, with another memory budget on demand -/
def planOf (source : String) (environment : String → Option String) (memBudget : Option Nat) :
    Except CommandError Planned := do
  let some d := Descriptor.parse? source | throw .unreadable
  let named ← (d.build (PlannerConfig.ofEnvironment environment)).mapError .plan
  let steps : GraphM Program := do
    match memBudget with
    | some b => Graph.configure { named.graph.config with localBudget := b }
    | none => pure ()
    Graph.lowerAll
  match steps.run named.graph with
  | .ok program graph => return ⟨graph, program⟩
  | .error e _ => throw (.plan e)

def load {m : Type → Type} [Monad m] (s : Surroundings m) (path : String) (memBudget : Option Nat) :
    CommandM m Planned := do
  let source ← check .file (← s.fileText path)
  check id (planOf source s.environment memBudget)

/-- number of operators below all roots; one that several roots share counts once for each -/
def operatorCount (p : Program) : Nat := total p.counts

def validateReport (p : Planned) : List ReportLine :=
  [.text s!"✓ Graph is valid ({operatorCount p.program} physical operators)"]

/-- a number of bytes in units of 2^20, with two places -/
def megabytes (n : Nat) : String := twoPlaces ((UInt64.ofNat n).toFloat / 1048576)

def explainReport (p : Planned) (json : Bool) : List ReportLine :=
  if json then ReportLine.linesOf (p.program.toJson.indented ++ "\n")
  else
    let c := p.graph.config
    [.text "Graph Plan", .text "==========", .text "", .text ("Optimization: " ++ c.strategy.label),
      .text (s!"Local Budget: {c.localBudget} bytes (" ++ megabytes c.localBudget ++ " MB)"), .text "",
      .text "Nodes:"] ++ ReportLine.linesOf p.graph.explain
      ++ [.text "", .text ("Physical Plan (" ++ p.program.fingerprint.short ++ "):")]
      ++ ReportLine.linesOf p.program.tree

/-- made-up blocks for the input nodes, which must have known dimensions -/
def bindInputs (g : Graph) (density : Float) : Except CommandError (Session Float) :=
  (g.nodes.toList.filter (·.kind = .input)).foldlM (fun s n =>
    match n.size.dims? with
    | some (r, c) => .ok (s.bind n.name (.dense (Dense.patterned r c density)))
    | none => .error (.unknownDims n.name)) {}

def resultLine (o : Operator) (d : Dense Float) : ReportLine :=
  .text ("  " ++ o.kind.label ++ s!" -> {d.rows}x{d.cols} (nnz {d.nnz})")

/-- a manifest with its times kept apart -/
def manifestReport (m : Manifest) (started finished : Nat) : List ReportLine :=
  (m.toJson.indented.splitOn "\n").map fun line =>
    if line.startsWith "  \"started_ms\": " then .started started
    else if line.startsWith "  \"finished_ms\": " then .finished finished
    else .text line

def runReport (p : Program) (out : RunOutput Float) (started finished : Nat) : List ReportLine :=
  [.text "✓ Graph executed successfully", .duration (finished - started),
    .text ("  Plan hash: " ++ out.manifest.plan.hex)]
    ++ (p.roots.zip out.results).map (fun (o, d) => resultLine o d)
    ++ manifestReport out.manifest started finished

/-- run a plan on made-up inputs -/
def runGraph {m : Type → Type} [Monad m] (s : Surroundings m) (p : Planned) (density : Float) :
    CommandM m (List ReportLine) := do
  let session ← check id (bindInputs p.graph density)
  let started ← s.clock
  match (Session.run p.program (started / 1000) (started / 1000)).run session with
  | .ok out _ =>
    let finished ← s.clock
    return runReport p.program out started finished
  | .error e _ => throw (.eval e)

def stopError : Stop RunError → CommandError
  | .fault e => .rowwise e
  | .outOfBounds => .outOfBounds

/-- tolerance within which a serial and a parallel run must agree -/
def agreement : Float := 1e-9

/-- run a row kernel serially and in parallel and compare -/
def runRowwise {m : Type → Type} [Monad m] (s : Surroundings m) (rows cols : Nat) (threads : Option Nat)
    (rowType : RowType) (density : Float) (sparse : Bool) : CommandM m (List ReportLine) := do
  let config := RunConfig.ofEnvironment s.cores s.environment
  let k := min (max (threads.getD config.maxTasks) 1) (max config.maxTasks 1)
  let some kernel := Kernel.demo? rowType | throw (.noKernel rowType)
  let op : Fused Float := { rowType, kernel, config }
  let d := Dense.patterned rows cols density
  let a : Block Float := if sparse then .sparse (.ofDense d) else .dense d
  let scalars : List Float := [2.0]
  let t0 ← s.clock
  let serial ← check stopError (op.execute [a] scalars)
  let t1 ← s.clock
  let parallel ← check stopError (op.executeParallel [a] scalars k)
  let t2 ← s.clock
  let agree := Dense.approxEq serial parallel agreement
  return [.text (rowType.label ++ s!" over {rows}x{cols} (nnz {a.nnz}):"), .serialTime (t1 - t0),
    .parallelTime (t2 - t1) k,
    .text s!"  output:   {parallel.rows}x{parallel.cols} (nnz {parallel.nnz}), results agree: {agree}"]

def perform {m : Type → Type} [Monad m] (s : Surroundings m) : Command → CommandM m (List ReportLine)
  | validate graph => return validateReport (← load s graph none)
  | explain graph memBudget json => return explainReport (← load s graph memBudget) json
  | run graph density => do runGraph s (← load s graph none) density
  | rowwise rows cols threads rowType density sparse => runRowwise s rows cols threads rowType density sparse

end Command

end MatrixEngine
