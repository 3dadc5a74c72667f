/-
Byte accounting against a fixed capacity.

Counters are 64-bit words: the check adds with saturation, and a release subtracts modulo `2 ^ 64`. A guard stands
for bytes that are accounted for until it is released.
-/
import MatrixEngine.Number.Basic

namespace MatrixEngine

inductive MemoryError where
  | budgetExceeded (tag : String) (requested capacity used : Nat)
  | noScratchVector (len : Nat) (available : List Nat)
  deriving DecidableEq, Repr

namespace MemoryError

/-- numbers in brackets, separated by commas -/
def listText (ns : List Nat) : String := "[" ++ ", ".intercalate (ns.map toString) ++ "]"

def message : MemoryError → String
  | budgetExceeded tag requested capacity used =>
    s!"memory budget exceeded for tag '{tag}': requested {requested} bytes, capacity {capacity}, used {used}"
  | noScratchVector len available =>
    s!"no scratch vector of length {len} configured (available: {listText available})"

end MemoryError

/-- the highest value seen -/
structure Peak where
  value : Nat := 0
  deriving DecidableEq, Repr

def Peak.record (p : Peak) (v : Nat) : Peak := ⟨max p.value v⟩

/-- bytes held and the tag they were asked for under -/
structure Guard where
  bytes : Nat
  tag : String
  deriving DecidableEq, Repr

/-- a capacity with the bytes in use and their highest value so far -/
structure Budget where
  capacity : Nat
  used : Nat := 0
  peak : Peak := {}
  deriving DecidableEq, Repr

namespace Budget

def ofCapacity (capacity : Nat) : Budget := { capacity := capacity }

/-- account for `bytes` if they fit; nothing always fits -/
def tryAcquire (b : Budget) (bytes : Nat) : Option Budget :=
  if bytes = 0 then some b
  else
    let next := saturatingAdd b.used bytes
    if next ≤ b.capacity then some { b with used := next, peak := b.peak.record next } else none

/-- a guard over `bytes`, or the shortfall -/
def acquire (b : Budget) (bytes : Nat) (tag : String) : Except MemoryError (Guard × Budget) :=
  match b.tryAcquire bytes with
  | some b' => .ok (⟨bytes, tag⟩, b')
  | none => .error (.budgetExceeded tag bytes b.capacity b.used)

def release (b : Budget) (g : Guard) : Budget :=
  if g.bytes = 0 then b else { b with used := wrappingSub b.used g.bytes }

end Budget

end MatrixEngine
