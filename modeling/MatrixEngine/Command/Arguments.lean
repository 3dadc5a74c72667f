/-
The command line: `validate`, `explain` and `run` over a graph file, and `rowwise` over a made-up matrix.

Options come behind the command as `--name value`, `--name=value`, `-g value`, `-g=value` or `-gvalue`, each at most
once. A value does not begin with a dash unless it follows an equals sign or is a lone dash.
-/
import MatrixEngine.Rowwise.RowType
import MatrixEngine.Text.Numeral

namespace MatrixEngine

/-- what is asked for on the command line -/
inductive Command where
  | validate (graph : String)
  | explain (graph : String) (memBudget : Option Nat) (json : Bool)
  | run (graph : String) (density : Float)
  | rowwise (rows cols : Nat) (threads : Option Nat) (rowType : RowType) (density : Float) (sparse : Bool)

namespace Command

/-- an option: its name, the letter that abbreviates it, and whether a value belongs to it -/
structure OptionSpec where
  name : String
  letter : Option Char := none
  hasValue : Bool := true
  deriving DecidableEq, Repr

/-- options as given, by name; a flag has an empty value -/
abbrev Given := List (String × String)

def graphOption : OptionSpec := { name := "graph", letter := some 'g' }

def optionsOf? : String → Option (List OptionSpec)
  | "validate" => some [graphOption]
  | "explain" => some [graphOption, { name := "mem-budget" }, { name := "json", hasValue := false }]
  | "run" => some [graphOption, { name := "density" }]
  | "rowwise" =>
    some [{ name := "rows" }, { name := "cols" }, { name := "threads" }, { name := "row-type" }, { name := "density" },
      { name := "sparse", hasValue := false }]
  | _ => none

/-- an argument taken apart: the option it names and the value it carries along, if any -/
def takeApart? (specs : List OptionSpec) (arg : String) : Option (OptionSpec × Option String) :=
  match arg.toList with
  | '-' :: '-' :: cs => do
    let spec ← specs.find? (·.name = String.ofList (cs.takeWhile (· ≠ '=')))
    match cs.dropWhile (· ≠ '=') with
    | '=' :: value => return (spec, some (String.ofList value))
    | _ => return (spec, none)
  | '-' :: c :: cs => do
    let spec ← specs.find? (·.letter = some c)
    match cs with
    | [] => return (spec, none)
    | '=' :: value => return (spec, some (String.ofList value))
    | value => return (spec, some (String.ofList value))
  | _ => none

/-- an argument can be the value of the option before it -/
def isValue (arg : String) : Bool := arg = "-" || arg.toList.head? ≠ some '-'

/-- the options given; anything else, or one option twice, is refused -/
def given? (specs : List OptionSpec) : List String → Option Given
  | [] => some []
  | ["--"] => some []
  | arg :: rest => do
    let (spec, carried) ← takeApart? specs arg
    let note (value : String) (g : Given) : Option Given :=
      if (g.lookup spec.name).isSome then none else some ((spec.name, value) :: g)
    match spec.hasValue, carried, rest with
    | false, none, rest => (given? specs rest).bind (note "")
    | false, some _, _ => none
    | true, some value, rest => (given? specs rest).bind (note value)
    | true, none, value :: rest => if isValue value then (given? specs rest).bind (note value) else none
    | true, none, [] => none

/-- the value of an option, read by `read`, or the default -/
def value? {β : Type} (g : Given) (name : String) (read : String → Option β) (default : β) : Option β :=
  match g.lookup name with
  | some text => read text
  | none => some default

def word? (text : String) : Option Nat := Numeral.unsigned? Numeral.maxWord64 text

/-- the value of an option that may be left out -/
def maybe? {β : Type} (g : Given) (name : String) (read : String → Option β) : Option (Option β) :=
  value? g name (fun text => (read text).map some) none

/-- the path of the graph file, which must be given and not be empty -/
def graph? (g : Given) : Option String := (g.lookup "graph").filter (· ≠ "")

def flag (g : Given) (name : String) : Bool := (g.lookup name).isSome

def parse? : List String → Option Command
  | [] => none
  | name :: args => do
    let g ← given? (← optionsOf? name) args
    match name with
    | "validate" => return validate (← graph? g)
    | "explain" => return explain (← graph? g) (← maybe? g "mem-budget" word?) (flag g "json")
    | "run" => return run (← graph? g) (← value? g "density" Numeral.float? 0.5)
    | _ =>
      return rowwise (← value? g "rows" word? 10000) (← value? g "cols" word? 100) (← maybe? g "threads" word?)
        (← value? g "row-type" RowType.parse? .rowAgg) (← value? g "density" Numeral.float? 1.0) (flag g "sparse")

end Command

end MatrixEngine
