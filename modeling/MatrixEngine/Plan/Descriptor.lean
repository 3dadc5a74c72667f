/-
Described graphs: a list of nodes by name, with settings on top of those of the caller.

A node names its input, which must come before it. Building gives node `k` of the list the number `k`.
-/
import MatrixEngine.Plan.Lowering
import MatrixEngine.Text.Yaml.Reader

namespace MatrixEngine

structure Overrides where
  strategy : Option Strategy := none
  localBudget : Option Nat := none
  forced : Option String := none
  dimsThreshold : Option Nat := none
  blockSize : Option Nat := none
  deriving DecidableEq, Repr

inductive DescribedNode where
  | input (name : String) (rows cols nnz : Option Nat)
  | reorg (name : String) (op : Reorg) (input : String) (placement : Option String)
  deriving DecidableEq, Repr

def DescribedNode.name : DescribedNode → String
  | input name _ _ _ => name
  | reorg name _ _ _ => name

structure Descriptor where
  overrides : Option Overrides
  nodes : List DescribedNode
  deriving DecidableEq, Repr

/-- a graph with the numbers of its nodes by name, in the order of the description -/
structure NamedGraph where
  graph : Graph
  names : List (String × NodeId)
  deriving Repr

/-! ## Documents -/

def Overrides.ofYaml? (y : Yaml) : Option Overrides := do
  let [strategy, localBudget, forced, dimsThreshold, blockSize] ← Yaml.fields?
    ["optimization_type", "local_mem_budget_bytes", "forced_exec_type", "local_dims_threshold", "block_size"] y | none
  return {
    strategy := ← Yaml.maybe? (fun y => y.text?.bind Strategy.ofName?) strategy
    localBudget := ← Yaml.maybe? (Yaml.unsigned? Numeral.maxWord64) localBudget
    forced := ← Yaml.maybe? Yaml.text? forced
    dimsThreshold := ← Yaml.maybe? (Yaml.unsigned? Numeral.maxWord64) dimsThreshold
    blockSize := ← Yaml.maybe? (Yaml.unsigned? Numeral.maxWord32) blockSize }

namespace DescribedNode

def inputOf? (y : Yaml) : Option DescribedNode := do
  let [name, rows, cols, nnz] ← Yaml.fields? ["name", "rows", "cols", "nnz"] y | none
  let word := Yaml.maybe? (Yaml.unsigned? Numeral.maxWord64)
  return input (← Yaml.required? Yaml.text? name) (← word rows) (← word cols) (← word nnz)

def reorgOf? (y : Yaml) : Option DescribedNode := do
  let [name, op, source, placement] ← Yaml.fields? ["name", "op", "input", "exec_type"] y | none
  return reorg (← Yaml.required? Yaml.text? name)
    (← Yaml.required? (fun y => y.text?.bind Reorg.ofName?) op)
    (← Yaml.required? Yaml.text? source) (← Yaml.maybe? Yaml.text? placement)

/-- a mapping with the kind of node for its only key -/
def ofYaml? : Yaml → Option DescribedNode
  | .mapping [(.scalar _ "input", content)] => inputOf? content
  | .mapping [(.scalar _ "reorg", content)] => reorgOf? content
  | _ => none

end DescribedNode

namespace Descriptor

def ofYaml? (y : Yaml) : Option Descriptor := do
  let [config, nodes] ← Yaml.fields? ["config", "nodes"] y | none
  let overrides ← Yaml.maybe? Overrides.ofYaml? config
  let items ← Yaml.required? Yaml.items? nodes
  return ⟨overrides, ← items.mapM DescribedNode.ofYaml?⟩

def parse? (text : String) : Option Descriptor := (Yaml.parse? text).bind ofYaml?

end Descriptor

/-! ## Building -/

def placementOf (text : String) : Except PlanError Placement :=
  (Placement.parse text).mapError fun s => .invalid (.unknownPlacement s)

def Overrides.applyTo (o : Overrides) (c : PlannerConfig) : Except PlanError PlannerConfig := do
  let forced ← match o.forced with
    | some text => (placementOf text).map some
    | none => pure c.forced
  return { c with
    strategy := o.strategy.getD c.strategy
    localBudget := o.localBudget.getD c.localBudget
    forced := forced
    dimsThreshold := o.dimsThreshold.getD c.dimsThreshold
    blockSize := o.blockSize.getD c.blockSize }

namespace NamedGraph

def step {β : Type} (g : NamedGraph) (m : GraphM β) : Except PlanError (β × NamedGraph) :=
  match m.run g.graph with
  | .ok b graph => .ok (b, { g with graph := graph })
  | .error e _ => .error e

def find (g : NamedGraph) (name : String) : Except PlanError NodeId :=
  match g.names.lookup name with
  | some id => .ok id
  | none => .error (.invalid (.noNode name))

/-- note the name of a node, which must be new -/
def register (g : NamedGraph) (name : String) (id : NodeId) : Except PlanError NamedGraph :=
  match g.names.lookup name with
  | some _ => .error (.invalid (.duplicateName name))
  | none => .ok { g with names := g.names ++ [(name, id)] }

def add (g : NamedGraph) (node : DescribedNode) (index : Nat) : Except PlanError NamedGraph :=
  match node with
  | .input name rows cols nnz => do
    let block := g.graph.config.blockSize
    let (id, g) ← g.step (Graph.addInput name ⟨rows, cols, block, block, nnz⟩)
    g.register name id
  | .reorg name op input placement => do
    let some source := g.names.lookup input | throw (.invalid (.unknownInput name input))
    let line := index + 1
    let (id, g) ← g.step (Graph.addReorg op [source] ⟨line, 1, line, 1⟩)
    let (_, g) ← g.step (Graph.rename id name)
    let g ← match placement with
      | none => pure g
      | some text => do
        let p ← placementOf text
        let (_, g) ← g.step (Graph.force id (some p))
        pure g
    g.register name id

end NamedGraph

/-- the graph of a description, on top of the caller's settings -/
def Descriptor.build (d : Descriptor) (base : PlannerConfig) : Except PlanError NamedGraph := do
  let config ← match d.overrides with
    | some o => o.applyTo base
    | none => pure base
  if d.nodes.isEmpty then throw (.invalid .noNodes)
  d.nodes.zipIdx.foldlM (fun g (node, index) => g.add node index) ⟨Graph.ofConfig config, []⟩

end MatrixEngine
