/-
Physical plans as documents, and their fingerprints.

A document holds everything but the numbers of operators; a shared operator is written once per use. Reading a
written plan gives back the same tree with numbers of its own for all operators.
-/
import MatrixEngine.Digest
import MatrixEngine.Physical.Operator

namespace MatrixEngine

namespace OperatorKind

def toJson : OperatorKind → Json
  | data name => .object [("lop", .string "data"), ("name", .string name)]
  | transform op => .object [("lop", .string "transform"), ("op", .string op.name)]
  | partialAggregate op direction =>
    .object [("lop", .string "partial_aggregate"), ("op", .string op.name), ("direction", .string direction.name)]
  | group => .object [("lop", .string "group"), ("op", .string "sort")]
  | aggregate op => .object [("lop", .string "aggregate"), ("op", .string op.name)]

def choice? {β : Type} (ofName? : String → Option β) (j : Json) : Option β := j.variant?.bind ofName?

/-- the content of a kind, once its name is known -/
def ofContent? (tag : String) (content : Json) : Option OperatorKind :=
  match tag with
  | "data" => do
    let [name] ← Json.fields? ["name"] content | none
    return data (← Json.required? Json.string? name)
  | "transform" => do
    let [op] ← Json.fields? ["op"] content | none
    return transform (← Json.required? (choice? Reorg.ofName?) op)
  | "partial_aggregate" => do
    let [op, direction] ← Json.fields? ["op", "direction"] content | none
    return partialAggregate (← Json.required? (choice? Aggregation.ofName?) op)
      (← Json.required? (choice? Direction.ofName?) direction)
  | "group" => do
    let [op] ← Json.fields? ["op"] content | none
    Json.required? (choice? fun s => if s = "sort" then some group else none) op
  | "aggregate" => do
    let [op] ← Json.fields? ["op"] content | none
    return aggregate (← Json.required? (choice? Aggregation.ofName?) op)
  | _ => none

/-- a kind: an object with its name under `lop`, or an array that begins with its name -/
def ofJson? : Json → Option OperatorKind
  | .object members => do
    let tag ← Json.field? members "lop"
    ofContent? (← Json.required? Json.string? tag) (.object (members.filter (·.1 ≠ "lop")))
  | .array (.string tag :: content) => ofContent? tag (.array content)
  | _ => none

end OperatorKind

def SizeInfo.fieldNames : List String := ["rows", "cols", "rows_in_block", "cols_in_block", "nnz"]

def SizeInfo.ofJson? (j : Json) : Option SizeInfo := do
  let [rows, cols, rowsInBlock, colsInBlock, nnz] ← Json.fields? SizeInfo.fieldNames j | none
  return {
    rows := ← Json.maybe? Json.word64? rows
    cols := ← Json.maybe? Json.word64? cols
    rowsInBlock := ← Json.required? Json.word32? rowsInBlock
    colsInBlock := ← Json.required? Json.word32? colsInBlock
    nnz := ← Json.maybe? Json.word64? nnz }

namespace Operator

mutual

def toJson : Operator → Json
  | ⟨_, kind, placement, output, correction, position, inputs⟩ =>
    .object [
      ("kind", kind.toJson),
      ("exec_type", .string placement.name),
      ("output", output.toJson),
      ("correction", match correction with
        | some c => .string c.name
        | none => .null),
      ("position", position.toJson),
      ("inputs", .array (toJsonAll inputs))]

def toJsonAll : List Operator → List Json
  | [] => []
  | o :: rest => toJson o :: toJsonAll rest

end

/-- the fields of an operator other than its inputs, in their order -/
def fieldNames : List String := ["kind", "exec_type", "output", "correction", "position"]

/-- an operator from its fields and inputs, without a number -/
def ofFields? (fields : List (Option Json)) (inputs : List Operator) : Option Operator := do
  let [kind, placement, output, correction, position] := fields | none
  return {
    number := 0
    kind := ← Json.required? OperatorKind.ofJson? kind
    placement := ← Json.required? (OperatorKind.choice? Placement.ofName?) placement
    output := ← Json.required? SizeInfo.ofJson? output
    correction := ← Json.maybe? (OperatorKind.choice? Correction.ofName?) correction
    position := ← Json.required? Position.ofJson? position
    inputs := inputs }

mutual

/-- an operator without a number -/
def ofJson? : Json → Option Operator
  | .object members => do
    let fields ← fieldNames.mapM (Json.field? members)
    let [inputs] ← inputsIn? members | none
    ofFields? fields inputs
  | .array [kind, placement, output, correction, position, .array inputs] => do
    ofFields? [some kind, some placement, some output, some correction, some position] (← ofJsonAll? inputs)
  | _ => none

/-- the operators listed under each field `inputs` -/
def inputsIn? : List (String × Json) → Option (List (List Operator))
  | [] => some []
  | (name, .array items) :: rest => do
    if name = "inputs" then
      return (← ofJsonAll? items) :: (← inputsIn? rest)
    else inputsIn? rest
  | (name, _) :: rest => if name = "inputs" then none else inputsIn? rest

def ofJsonAll? : List Json → Option (List Operator)
  | [] => some []
  | j :: rest => do return (← ofJson? j) :: (← ofJsonAll? rest)

end

mutual

/-- number an operator and all below it from `next` on; the second part is the next free number -/
def renumber (next : Nat) : Operator → Operator × Nat
  | ⟨_, kind, placement, output, correction, position, inputs⟩ =>
    let (inputs, next) := renumberAll next inputs
    (⟨next, kind, placement, output, correction, position, inputs⟩, next + 1)

def renumberAll (next : Nat) : List Operator → List Operator × Nat
  | [] => ([], next)
  | o :: rest =>
    let (o, next) := renumber next o
    let (rest, next) := renumberAll next rest
    (o :: rest, next)

end

end Operator

namespace Program

def toJson (p : Program) : Json := .object [("roots", .array (Operator.toJsonAll p.roots))]

def text (p : Program) : String := p.toJson.compact

/-- the roots in a document, without numbers -/
def rootsOf? (j : Json) : Option (List Operator) := do
  let [roots] ← Json.fields? ["roots"] j | none
  match roots with
  | some (.array items) => Operator.ofJsonAll? items
  | _ => none

/-- the plan in a document, with numbers from `next` on -/
def ofJson? (next : Nat) (j : Json) : Option Program := (rootsOf? j).map fun roots => ⟨(Operator.renumberAll next roots).1⟩

def parse? (next : Nat) (text : String) : Option Program := (Json.parse? text).bind (ofJson? next)

/-- the digest of the written roots; numbers do not enter -/
def fingerprint (p : Program) : Digest := Digest.ofText (Json.array (Operator.toJsonAll p.roots)).compact

end Program

end MatrixEngine
