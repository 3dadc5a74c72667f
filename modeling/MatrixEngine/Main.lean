/-
The program: arguments in, report out.
-/
import MatrixEngine.Command.Report

open MatrixEngine

def readText (path : String) : IO (Except String String) := do
  try
    return .ok (← IO.FS.readFile path)
  catch e =>
    match e with
    | .noFileOrDirectory .. => return .error "No such file or directory (os error 2)"
    | e => return .error (toString e)

def readEnvironment : IO (List (String × String)) :=
  consultedVariables.filterMapM fun name => do return (← IO.getEnv name).map (name, ·)

def main (args : List String) : IO UInt32 := do
  match Command.parse? args with
  | none =>
    IO.eprintln "usage: validate, explain or run with --graph FILE, or rowwise"
    return 2
  | some command =>
    let env ← readEnvironment
    let surroundings : Surroundings IO := {
      environment := fun name => env.lookup name
      cores := 1
      fileText := readText
      clock := do return (← IO.monoNanosNow) / 1000 }
    match ← (command.perform surroundings).run with
    | .ok lines =>
      for line in lines do
        IO.println line.render
      return 0
    | .error .outOfBounds => return 101
    | .error e =>
      IO.eprintln ("Error: " ++ e.message)
      return 1
