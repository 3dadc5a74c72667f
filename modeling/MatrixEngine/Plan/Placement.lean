/-
Where an operator runs and how the planner decides it: the two choices with their names.
-/
import MatrixEngine.Text.Numeral

namespace MatrixEngine

/-- where a physical operator runs: in this process, or on the cluster -/
inductive Placement where
  | local
  | distributed
  deriving DecidableEq, Repr

namespace Placement

/-- the name in plans on paper -/
def label : Placement → String
  | .local => "LOCAL"
  | distributed => "DIST"

/-- the name in documents -/
def name : Placement → String
  | .local => "Local"
  | distributed => "Distributed"

def ofName? : String → Option Placement
  | "Local" => some .local
  | "Distributed" => some .distributed
  | _ => none

/-- read a choice in any case; the failure is the text that was looked up -/
def parse (s : String) : Except String Placement :=
  match Numeral.lower s with
  | "local" | "cp" => .ok .local
  | "dist" | "distributed" | "mr" => .ok .distributed
  | other => .error other

/-- what is said of a text that names no placement -/
def unknownMessage (s : String) : String := s!"unknown exec type '{s}'"

end Placement

/-- how placements are decided when nothing is forced: by memory estimates, or by dimensions alone -/
inductive Strategy where
  | memoryBased
  | heuristic
  deriving DecidableEq, Repr

namespace Strategy

/-- the name in documents -/
def name : Strategy → String
  | memoryBased => "memory_based"
  | heuristic => "heuristic"

/-- the name in reports -/
def label : Strategy → String
  | memoryBased => "MemoryBased"
  | heuristic => "Heuristic"

def ofName? : String → Option Strategy
  | "memory_based" => some memoryBased
  | "heuristic" => some heuristic
  | _ => none

/-- read a choice in any case; the failure is the text that was looked up -/
def parse (s : String) : Except String Strategy :=
  match Numeral.lower s with
  | "memory" | "memory_based" => .ok memoryBased
  | "heuristic" => .ok heuristic
  | other => .error other

/-- what is said of a text that names no strategy -/
def unknownMessage (s : String) : String := s!"unknown optimization type '{s}'"

end Strategy

end MatrixEngine
