/-
Running physical plans over bound blocks.

A session holds the blocks bound to names and a memo of the operators it has evaluated, by number. Evaluation keeps
the memo; a run begins with an empty one. A run is reported by digests of the plan, of the bound blocks in name order
and of the results, so that two runs can be compared without their blocks. Within a run the memo only saves work: the
results are those of plain recursion.
-/
import MatrixEngine.Block.Basic
import MatrixEngine.Physical.Serial
import MatrixEngine.Physical.Value
import MatrixEngine.Text.Json.Canonical

namespace MatrixEngine

/-- blocks by name, sorted by name -/
structure Bindings (α : Type) where
  entries : List (String × Block α) := []
  deriving Repr

namespace Bindings

variable {α : Type}

/-- bind a block to a name; the last binding of a name counts -/
def bind (bs : Bindings α) (name : String) (b : Block α) : Bindings α := ⟨Json.insertMember name b bs.entries⟩

def get? (bs : Bindings α) (name : String) : Option (Block α) := bs.entries.lookup name

/-- the digest of all blocks in name order -/
def digest [CellText α] (bs : Bindings α) : Digest :=
  Digest.ofText (Json.object (bs.entries.map fun (n, b) => (n, b.toJson))).compact

end Bindings

/-- bound blocks and the values of operators evaluated so far, by number -/
structure Session (α : Type) where
  bindings : Bindings α := {}
  memo : List (Nat × Value α) := []
  deriving Repr

/-- the report of a run; times are milliseconds of the clock -/
structure Manifest where
  plan : Digest
  version : String
  inputs : Option Digest
  outputs : Option Digest
  operators : Nat
  started : Nat
  finished : Nat

namespace Manifest

/-- same plan, same inputs, same outputs -/
def sameResults (a b : Manifest) : Bool :=
  a.plan.bytes == b.plan.bytes && a.inputs.map (·.bytes) == b.inputs.map (·.bytes)
    && a.outputs.map (·.bytes) == b.outputs.map (·.bytes)

def digestJson (d : Digest) : Json := .array (d.bytes.map fun b => .nat b.toNat)

def digestJson? : Option Digest → Json
  | some d => digestJson d
  | none => .null

def toJson (m : Manifest) : Json :=
  .object [("plan_hash", digestJson m.plan), ("engine_version", .string m.version),
    ("inputs_digest", digestJson? m.inputs), ("outputs_digest", digestJson? m.outputs),
    ("lops_executed", .nat m.operators), ("started_ms", .nat m.started), ("finished_ms", .nat m.finished)]

end Manifest

/-- the results of a run in root order, and its report -/
structure RunOutput (α : Type) where
  results : List (Dense α)
  manifest : Manifest

namespace Session

variable {α : Type} [Cell α] [DecidableEq α]

/-- steps of a session that may fail; the memo survives a failure -/
abbrev SessionM (α : Type) := EStateM EvalError (Session α)

/-- bind a block to a name -/
def bind (s : Session α) (name : String) (b : Block α) : Session α := { s with bindings := s.bindings.bind name b }

/-- the value an operator has if its inputs have the values `args`, noted under its number -/
def applyNoted (number : Nat) (kind : OperatorKind) (output : SizeInfo) (args : List (Value α)) :
    SessionM α (Value α) := fun s =>
  match Value.apply s.bindings.get? kind output args with
  | .ok v => .ok v { s with memo := (number, v) :: s.memo }
  | .error e => .error e s

mutual

/-- the value of an operator, from the memo if it is there -/
def value : Operator → SessionM α (Value α)
  | ⟨number, kind, _, output, _, _, inputs⟩ => do
    match (← get).memo.lookup number with
    | some v => return v
    | none =>
      let args ← values inputs
      applyNoted number kind output args

def values : List Operator → SessionM α (List (Value α))
  | [] => return []
  | o :: rest => do
    let v ← value o
    let vs ← values rest
    return v :: vs

end

def eval (o : Operator) : SessionM α (Dense α) := do
  match ← value o with
  | .matrix d => return d
  | .cells _ => throw (.cellsResult o.kind.label)

def outputsDigest [CellText α] (results : List (Dense α)) : Digest :=
  Digest.ofText (Json.array (results.map Dense.toJson)).compact

/-- evaluate every root of a plan from an empty memo -/
def evalRoots (p : Program) : SessionM α (List (Dense α)) := do
  modify fun s => { s with memo := [] }
  p.roots.mapM eval

/-- run a plan and report on it, given the times of its start and end -/
def run [CellText α] (p : Program) (started finished : Nat) : SessionM α (RunOutput α) := do
  let inputs := (← get).bindings.digest
  let results ← evalRoots p
  return {
    results := results
    manifest := {
      plan := p.fingerprint
      version := Digest.version
      inputs := some inputs
      outputs := some (outputsDigest results)
      operators := (← get).memo.length
      started := started
      finished := finished } }

end Session

end MatrixEngine
