/-
Independent tasks of a parallel run.

The tasks of a group do not see one another, so their results are those of running them one by one. An access outside
of a buffer in any task ends the whole run; otherwise the first failing task, in task order, is reported.
-/
import MatrixEngine.Rowwise.Kernel

namespace MatrixEngine

inductive ArgumentFault where
  | noInputs
  | noSecondDimension (type : String) (n2 constDim2 : Option Nat)
  | notScalar (type : String)
  deriving DecidableEq, Repr

namespace ArgumentFault

def optionText : Option Nat → String
  | some n => s!"Some({n})"
  | none => "None"

def message : ArgumentFault → String
  | noInputs => "invalid argument: no inputs"
  | noSecondDimension type n2 constDim2 =>
    s!"invalid argument: {type} needs a second output dimension (n2=" ++ optionText n2 ++ ", const="
      ++ optionText constDim2 ++ ")"
  | notScalar type => s!"invalid argument: scalar execution needs FULL_AGG, operator is {type}"

end ArgumentFault

inductive RunError where
  | argument (e : ArgumentFault)
  | task (index : Nat) (source : KernelError)
  | kernel (source : KernelError)
  | memory (source : MemoryError)
  deriving DecidableEq, Repr

def RunError.message : RunError → String
  | argument e => e.message
  | task index _ => s!"task {index} failed"
  | kernel source => source.message
  | memory source => source.message

/-- a group of at most so many tasks at a time -/
structure TaskGroup where
  threads : Nat
  deriving DecidableEq, Repr

namespace TaskGroup

/-- a group for `k` threads, at least one -/
def ofCount (k : Nat) : TaskGroup := ⟨max k 1⟩

/-- what a task leaves behind -/
abbrev Outcome (β : Type) := Except (Stop KernelError) β

/-- the task was cut off by an access outside of a buffer -/
def crashed {β : Type} : Outcome β → Bool
  | .error .outOfBounds => true
  | _ => false

/-- results in order, or the first fault with the number of its task -/
def collect {β : Type} (index : Nat) : List (Outcome β) → Except (Stop RunError) (List β)
  | [] => .ok []
  | .ok b :: rest => (collect (index + 1) rest).map (b :: ·)
  | .error (.fault e) :: _ => .error (.fault (.task index e))
  | .error .outOfBounds :: _ => .error .outOfBounds

/-- run a task for every item and gather the results in item order -/
def run {ι β : Type} (_ : TaskGroup) (items : List ι) (f : Nat → ι → Outcome β) : Except (Stop RunError) (List β) :=
  let outcomes := items.zipIdx.map fun (item, task) => f task item
  if outcomes.any crashed then .error .outOfBounds else collect 0 outcomes

end TaskGroup

end MatrixEngine
