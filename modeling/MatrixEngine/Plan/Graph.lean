/-
The graph of logical operators.

Nodes are numbered in the order in which they are added. An edge is kept at both ends, as an input of the consumer and
as a parent of the producer. A node also carries what was derived for it so far: estimates, a placement, and its
lowering. A failing step leaves the graph as it is at that point.
-/
import MatrixEngine.Config
import MatrixEngine.Physical.Operator

namespace MatrixEngine

structure NodeId where
  index : Nat
  deriving DecidableEq, Repr

def NodeId.label (id : NodeId) : String := s!"HopId({id.index})"

/-- what a node is: a matrix from outside, or a reorganisation of its input -/
inductive NodeKind where
  | input
  | reorg (op : Reorg)
  deriving DecidableEq, Repr

def NodeKind.name : NodeKind → String
  | input => "input"
  | reorg op => op.name

/-- a logical operator -/
structure Node where
  id : NodeId
  name : String
  kind : NodeKind
  size : SizeInfo
  inputs : List NodeId
  parents : List NodeId
  position : Position
  forced : Option Placement := none
  recompile : Bool := false
  outputBytes : Option Nat := none
  memoryBytes : Option Nat := none
  placement : Option Placement := none
  lowered : Option Operator := none
  deriving Repr

/-- the operation on paper -/
def Node.label (n : Node) : String :=
  match n.kind with
  | .input => s!"in({n.name})"
  | .reorg op => op.label

/-- every operation can run anywhere -/
def Node.runsAnywhere (_ : Node) : Bool := true

/-- drop estimates and placement; the lowering stays -/
def Node.forget (n : Node) : Node := { n with outputBytes := none, memoryBytes := none, placement := none }

inductive LoweringFault where
  | inputCount (op : Reorg) (got : Nat)
  | inputOrder (input : NodeId)
  deriving DecidableEq, Repr

def LoweringFault.message : LoweringFault → String
  | inputCount op got => op.label ++ s!" expects {op.arity} input(s), got {got}"
  | inputOrder input => "input " ++ input.label ++ " does not come before its consumer"

inductive GraphFault where
  | unknownPlacement (text : String)
  | noNodes
  | unknownInput (node input : String)
  | duplicateName (name : String)
  | noNode (name : String)
  deriving DecidableEq, Repr

def GraphFault.message : GraphFault → String
  | unknownPlacement text => Placement.unknownMessage text
  | noNodes => "graph has no nodes"
  | unknownInput node input => s!"node '{node}': unknown input '{input}'"
  | duplicateName name => s!"duplicate node name '{name}'"
  | noNode name => s!"no node named '{name}'"

inductive PlanError where
  | lowering (id : NodeId) (name : String) (position : Position) (fault : LoweringFault)
  | unknownNode (id : NodeId)
  | invalid (fault : GraphFault)
  deriving DecidableEq, Repr

def PlanError.message : PlanError → String
  | lowering id name position fault =>
    position.label ++ ": lowering " ++ id.label ++ s!" ('{name}') failed: " ++ fault.message
  | unknownNode id => "unknown hop " ++ id.label
  | invalid fault => "invalid graph: " ++ fault.message

/-- nodes by number, the settings in force, and the number of the next physical operator -/
structure Graph where
  nodes : Array Node := #[]
  config : PlannerConfig := {}
  nextOperator : Nat := 0
  deriving Repr

/-- steps on a graph that may fail -/
abbrev GraphM := EStateM PlanError Graph

namespace Graph

/-- no nodes -/
def ofConfig (config : PlannerConfig) : Graph := { config := config }

def node? (g : Graph) (id : NodeId) : Option Node := g.nodes[id.index]?

/-- change a node, if it is there -/
def update (g : Graph) (id : NodeId) (f : Node → Node) : Graph := { g with nodes := g.nodes.modify id.index f }

/-- add a node with the next number -/
def push (g : Graph) (name : String) (kind : NodeKind) (size : SizeInfo) (inputs : List NodeId)
    (position : Position) : Graph :=
  let n : Node := { id := ⟨g.nodes.size⟩, name, kind, size, inputs, parents := [], position }
  { g with nodes := g.nodes.push n }

/-- note a consumer once -/
def addParent (id : NodeId) (n : Node) : Node :=
  if n.parents.contains id then n else { n with parents := n.parents ++ [id] }

/-- the nodes that nothing consumes -/
def sinks (g : Graph) : List NodeId := (g.nodes.toList.filter (·.parents.isEmpty)).map (·.id)

/-- the size that follows from the first input; input nodes and nodes without an input keep theirs -/
def refreshedSize (g : Graph) (n : Node) : SizeInfo :=
  match n.kind, n.inputs with
  | .reorg op, input :: _ =>
    match g.node? input with
    | some a =>
      let (rows, cols, nnz) := op.outputSize a.size
      { n.size with rows := rows, cols := cols, nnz := nnz }
    | none => n.size
  | _, _ => n.size

def refreshed (g : Graph) (id : NodeId) : Graph :=
  match g.node? id with
  | some n => g.update id fun m => { m with size := g.refreshedSize n }
  | none => g

def lineOf (n : Node) : String :=
  let dims := match n.size.dims? with
    | some (r, c) => s!"{r}x{c}"
    | none => "?x?"
  let inputs := ",".intercalate (n.inputs.map fun i => toString i.index)
  s!"({n.id.index}) " ++ n.label ++ " [" ++ dims ++ ", nnz=" ++ SizeInfo.known n.size.nnz ++ "] in=[" ++ inputs ++ "]"
    ++ (n.placement.map fun p => " " ++ p.label).getD ""
    ++ (n.memoryBytes.map fun m => s!" mem={m}").getD ""
    ++ (if n.recompile then " recompile" else "") ++ "\n"

def explain (g : Graph) : String := String.join (g.nodes.toList.map lineOf)

/-! ## Steps -/

def node (id : NodeId) : GraphM Node := do
  match (← get).node? id with
  | some n => return n
  | none => throw (.unknownNode id)

def change (id : NodeId) (f : Node → Node) : GraphM Unit := do
  let _ ← node id
  modify (·.update id f)

def addInput (name : String) (size : SizeInfo) : GraphM NodeId := do
  let id : NodeId := ⟨(← get).nodes.size⟩
  modify (·.push name .input size [] {})
  return id

/-- add a reorganisation of nodes that are there; how many it needs is not checked before it is lowered -/
def addReorg (op : Reorg) (inputs : List NodeId) (position : Position) : GraphM NodeId := do
  inputs.forM fun i => do let _ ← node i
  let g ← get
  let id : NodeId := ⟨g.nodes.size⟩
  let g := g.push op.label (.reorg op) (.unknown g.config.blockSize) inputs position
  let g := inputs.foldl (fun g i => g.update i (addParent id)) g
  set (g.refreshed id)
  return id

def rename (id : NodeId) (name : String) : GraphM Unit := change id fun n => { n with name := name }

/-- state the size of a node; its consumers keep theirs -/
def resize (id : NodeId) (size : SizeInfo) : GraphM Unit := change id fun n => { n with size := size }

/-- force a placement, or lift the force -/
def force (id : NodeId) (p : Option Placement) : GraphM Unit := change id fun n => { n with forced := p }

/-- drop the estimates and the placement of a node -/
def invalidate (id : NodeId) : GraphM Unit := change id Node.forget

def refresh (id : NodeId) : GraphM Unit := do
  let _ ← node id
  modify (·.refreshed id)

/-- derive the sizes of all nodes anew, in their order -/
def refreshAll : GraphM Unit := do
  let g ← get
  set ((List.range g.nodes.size).foldl (fun g i => g.refreshed ⟨i⟩) g)

/-- put settings in force; estimates and placements of all nodes are dropped -/
def configure (config : PlannerConfig) : GraphM Unit :=
  modify fun g => { g with config := config, nodes := g.nodes.map Node.forget }

end Graph

end MatrixEngine
