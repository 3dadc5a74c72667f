/-
Scratch vectors for one task.

An arena serves up to two lengths. Each length has its own ring of vectors, handed out in turn: request `t` and
request `t + k` of one length return the same vector when the ring has `k` of them. What was written stays there
until a request asks for zeros.
-/
import MatrixEngine.Memory.Budget
import MatrixEngine.Number.Basic

namespace MatrixEngine

/-- vectors of one length, handed out in turn -/
structure Ring (α : Type) where
  len : Nat
  vectors : Array (Array α)
  next : Nat
  deriving DecidableEq, Repr

namespace Ring

variable {α : Type} [Cell α]

def ofCount (len count : Nat) : Ring α := ⟨len, Array.replicate count (Cell.zeros len), 0⟩

/-- the vector whose turn it is, and the ring with the turn passed on -/
def advance? (r : Ring α) : Option (Nat × Ring α) :=
  match r with
  | ⟨len, vectors, next⟩ =>
    if vectors.size = 0 then none
    else
      let slot := next % vectors.size
      let after := (slot + 1) % vectors.size
      some (slot, ⟨len, vectors, after⟩)

end Ring

/-- which vector of which ring -/
structure Slot where
  len : Nat
  index : Nat
  deriving DecidableEq, Repr

/-- rings of scratch vectors and the guard over their bytes -/
structure Scratch (α : Type) where
  rings : List (Ring α)
  guard : Option Guard
  deriving DecidableEq, Repr

namespace Scratch

variable {α : Type} [Cell α]

def empty : Scratch α := ⟨[], none⟩

/-- the lengths to serve: a second one counts only if it is positive and differs from the first -/
def lengthsFor (len : Nat) (len2 : Option Nat) : List Nat :=
  match len2 with
  | some l2 => if l2 ≠ len ∧ 0 < l2 then [len, l2] else [len]
  | none => [len]

def bytesFor (count : Nat) (lens : List Nat) : Nat := total (lens.map (· * count * 8))

/-- `count` vectors per length, accounted against a budget -/
def acquire (b : Budget) (count len : Nat) (len2 : Option Nat) : Except MemoryError (Scratch α × Budget) :=
  if count = 0 then .ok (empty, b)
  else do
    let lens := lengthsFor len len2
    let (g, b') ← b.acquire (bytesFor count lens) "scratch"
    return (⟨lens.map (Ring.ofCount · count), some g⟩, b')

def bytes (s : Scratch α) : Nat := (s.guard.map (·.bytes)).getD 0

def lengths (s : Scratch α) : List Nat := s.rings.map (·.len)

/-- change the first ring of a length -/
def updateRing (len : Nat) (f : Ring α → Ring α) : List (Ring α) → List (Ring α)
  | [] => []
  | r :: rest => if r.len = len then f r :: rest else r :: updateRing len f rest

def read (s : Scratch α) (slot : Slot) : Array α :=
  ((s.rings.find? (·.len = slot.len)).bind (·.vectors[slot.index]?)).getD #[]

def modify (s : Scratch α) (slot : Slot) (f : Array α → Array α) : Scratch α :=
  match s with
  | ⟨rings, guard⟩ =>
    ⟨updateRing slot.len (fun r =>
      match r with
      | ⟨len, vectors, next⟩ => ⟨len, vectors.modify slot.index f, next⟩) rings, guard⟩

/-- the next vector of a length, zeroed on demand -/
def request (s : Scratch α) (len : Nat) (reset : Bool) : Except MemoryError (Slot × Scratch α) :=
  match s.rings.find? (·.len = len) with
  | none => .error (.noScratchVector len s.lengths)
  | some r =>
    match r.advance? with
    | none => .error (.noScratchVector len [])
    | some (index, r') =>
      let s' : Scratch α := ⟨updateRing len (fun _ => r') s.rings, s.guard⟩
      let slot : Slot := ⟨len, index⟩
      .ok (slot, if reset then s'.modify slot (fun _ => Cell.zeros len) else s')

end Scratch

end MatrixEngine
