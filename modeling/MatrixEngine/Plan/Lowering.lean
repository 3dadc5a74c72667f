/-
Placement and lowering: where nodes run, and the physical operators they become.

An operator's memory is its own output and the outputs of all its inputs. A placement once chosen is kept until it is
dropped, or for ever reconsidered if the node was flagged because its shape was unknown when it was placed.

A node is lowered at most once and its operator is shared by all consumers. A transpose or a diagonal matrix is one
direct operator where the placement says; the diagonal of a matrix is a distributed chain that extracts, sorts and
sums keyed cells.
-/
import MatrixEngine.Physical.Serial
import MatrixEngine.Plan.Graph

namespace MatrixEngine.Graph

/-! ## Memory and placement -/

/-- bytes of a node's output; the default where a shape is unknown -/
def outputBytesOf (g : Graph) (n : Node) : Nat :=
  let bytes? := match n.kind with
    | .input => n.size.dims?.map fun (r, c) => Cost.estimate Float r c n.size.nnz
    | .reorg op => do
      let first ← n.inputs.head?
      let a ← g.node? first
      op.outputBytes? n.size a.size
  bytes?.getD g.config.defaultBytes

/-- estimate the output of a node and note the estimate -/
def outputBytes (id : NodeId) : GraphM Nat := do
  let n ← node id
  let bytes := (← get).outputBytesOf n
  modify (·.update id fun n => { n with outputBytes := some bytes })
  return bytes

/-- estimate the memory of a node, noting the estimates of its own output and of each input on the way -/
def memoryBytes (id : NodeId) : GraphM Nat := do
  let n ← node id
  let own ← outputBytes id
  let total ← n.inputs.foldlM (fun total i => do return saturatingAdd total (← outputBytes i)) own
  modify (·.update id fun n => { n with memoryBytes := some total })
  return total

/-- the first input is a vector or small in both dimensions -/
def smallInput (g : Graph) (n : Node) : Bool :=
  ((n.inputs.head?.bind g.node?).map (·.size)).any fun s => s.isVector || s.within g.config.dimsThreshold

/-- the placement that the strategy in force decides for a reorganisation -/
def decide (id : NodeId) (n : Node) : GraphM Placement := do
  let g ← get
  match g.config.strategy with
  | .memoryBased => return if (← memoryBytes id) < g.config.localBudget then .local else .distributed
  | .heuristic => return if g.smallInput n then .local else .distributed

/-- a decision taken anew: inputs are local, then force, then the strategy, which flags a node of unknown shape -/
def placeAnew (id : NodeId) (n : Node) : GraphM Placement := do
  let config := (← get).config
  match n.kind, n.forced <|> config.forced with
  | .input, _ => return .local
  | .reorg _, some p => return p
  | .reorg _, none =>
    if !n.size.dimsKnown && config.recompile then
      modify (·.update id fun n => { n with recompile := true })
    decide id n

def place (id : NodeId) : GraphM Placement := do
  let n ← node id
  match n.placement, n.recompile with
  | some p, false => return p
  | _, _ =>
    let p ← placeAnew id n
    modify (·.update id fun n => { n with placement := some p })
    return p

/-! ## Lowering -/

def freshNumber : GraphM Nat := do
  let n := (← get).nextOperator
  modify fun g => { g with nextOperator := n + 1 }
  return n

/-- the chain that extracts a diagonal; each output cell meets at most one value, so the sum needs no correction -/
def diagonalChain (input : Operator) (n : Node) : GraphM Operator := do
  let partialStep : Operator :=
    ⟨← freshNumber, .partialAggregate .diagToVector .col, .distributed, n.size,
      some (.ofPartial .diagToVector .col), n.position, [input]⟩
  let groupStep := Operator.group (← freshNumber) partialStep .distributed n.size n.position
  return ⟨← freshNumber, .aggregate .sum, .distributed, n.size, some .none, n.position, [groupStep]⟩

/-- the operators of a reorganisation over its lowered input -/
def lowerOver (id : NodeId) (n : Node) (op : Reorg) (input : Operator) : GraphM Operator := do
  match op with
  | .diagToVector => diagonalChain input n
  | op =>
    let p ← place id
    return .transform (← freshNumber) input op p n.size n.position

def noteLowered (id : NodeId) (o : Operator) : GraphM Operator := do
  modify (·.update id fun n => { n with lowered := some o })
  return o

def loweringError (n : Node) (fault : LoweringFault) : PlanError := .lowering n.id n.name n.position fault

/-- the operator of a node, made on the first request -/
def lower (id : NodeId) : GraphM Operator := do
  let n ← node id
  match n.lowered with
  | some o => return o
  | none =>
    match n.kind, n.inputs with
    | .input, _ => noteLowered id (.data (← freshNumber) n.name n.size n.position)
    | .reorg op, [input] =>
      if _h : input.index < id.index then
        let a ← lower input
        noteLowered id (← lowerOver id n op a)
      else throw (loweringError n (.inputOrder input))
    | .reorg op, inputs => throw (loweringError n (.inputCount op inputs.length))
termination_by id.index

/-- the plan for all nodes that nothing consumes -/
def lowerAll : GraphM Program := do
  let roots ← (← get).sinks.mapM lower
  return ⟨roots⟩

end MatrixEngine.Graph

namespace MatrixEngine

inductive GraphOp where
  | addInput (name : String) (size : SizeInfo)
  | addReorg (op : Reorg) (inputs : List NodeId) (position : Position)
  | rename (id : NodeId) (name : String)
  | resize (id : NodeId) (size : SizeInfo)
  | force (id : NodeId) (p : Option Placement)
  | invalidate (id : NodeId)
  | refresh (id : NodeId)
  | refreshAll
  | configure (config : PlannerConfig)
  | outputBytes (id : NodeId)
  | memoryBytes (id : NodeId)
  | place (id : NodeId)
  | lower (id : NodeId)
  | lowerAll
  deriving Repr

inductive GraphAnswer where
  | done
  | node (id : NodeId)
  | bytes (n : Nat)
  | placement (p : Placement)
  | operator (o : Operator)
  | program (p : Program)
  deriving Repr

def GraphOp.perform : GraphOp → GraphM GraphAnswer
  | addInput name size => .node <$> Graph.addInput name size
  | addReorg op inputs position => .node <$> Graph.addReorg op inputs position
  | rename id name => (fun _ => .done) <$> Graph.rename id name
  | resize id size => (fun _ => .done) <$> Graph.resize id size
  | force id p => (fun _ => .done) <$> Graph.force id p
  | invalidate id => (fun _ => .done) <$> Graph.invalidate id
  | refresh id => (fun _ => .done) <$> Graph.refresh id
  | refreshAll => (fun _ => .done) <$> Graph.refreshAll
  | configure config => (fun _ => .done) <$> Graph.configure config
  | outputBytes id => .bytes <$> Graph.outputBytes id
  | memoryBytes id => .bytes <$> Graph.memoryBytes id
  | place id => .placement <$> Graph.place id
  | lower id => .operator <$> Graph.lower id
  | lowerAll => .program <$> Graph.lowerAll

end MatrixEngine
