/-
Named guards and arenas over one budget.

A name holds one thing at a time: what is acquired under a name in use replaces the old holding, whose bytes go back
after the new ones were accounted for.
-/
import MatrixEngine.Memory.Scratch

namespace MatrixEngine

inductive Holding (α : Type) where
  | guard (g : Guard)
  | scratch (s : Scratch α)
  deriving Repr

/-- a budget with what is held of it by name -/
structure Holdings (α : Type) where
  budget : Budget
  held : List (String × Holding α)
  deriving Repr

namespace Holdings

variable {α : Type} [Cell α]

def ofCapacity (capacity : Nat) : Holdings α := ⟨.ofCapacity capacity, []⟩

def guardOf : Holding α → Option Guard
  | .guard g => some g
  | .scratch s => s.guard

/-- give back what a name holds; tells whether it held anything -/
def drop (h : Holdings α) (name : String) : Bool × Holdings α :=
  match h.held.lookup name with
  | none => (false, h)
  | some x =>
    let budget := match guardOf x with
      | some g => h.budget.release g
      | none => h.budget
    (true, ⟨budget, h.held.filter (·.1 ≠ name)⟩)

/-- let a name hold something, giving back what it held before -/
def hold (h : Holdings α) (name : String) (x : Holding α) : Holdings α :=
  let (_, h) := h.drop name
  { h with held := (name, x) :: h.held }

def acquire (h : Holdings α) (name : String) (bytes : Nat) (tag : String) :
    Except MemoryError (Guard × Holdings α) := do
  let (g, budget) ← h.budget.acquire bytes tag
  return (g, hold { h with budget := budget } name (.guard g))

def acquireScratch (h : Holdings α) (name : String) (count len : Nat) (len2 : Option Nat) :
    Except MemoryError (Scratch α × Holdings α) := do
  let (s, budget) ← Scratch.acquire h.budget count len len2
  return (s, hold { h with budget := budget } name (.scratch s))

def scratch? (h : Holdings α) (name : String) : Option (Scratch α) :=
  match h.held.lookup name with
  | some (.scratch s) => some s
  | _ => none

/-- put an arena back after use -/
def putScratch (h : Holdings α) (name : String) (s : Scratch α) : Holdings α :=
  { h with held := h.held.map fun (n, x) => if n = name then (n, .scratch s) else (n, x) }

end Holdings

end MatrixEngine
