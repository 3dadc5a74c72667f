/-
Settings of the planner and of row-wise runs: defaults, documents, and overrides from the environment.

A variable that is set to something unreadable is passed over.
-/
import MatrixEngine.Plan.Placement
import MatrixEngine.Text.Json.Reader

namespace MatrixEngine

/-- the settings a planner consults when it estimates memory and places nodes -/
structure PlannerConfig where
  strategy : Strategy := .memoryBased
  localBudget : Nat := 0x80000000
  forced : Option Placement := none
  recompile : Bool := true
  dimsThreshold : Nat := 2000
  blockSize : Nat := 1000
  defaultBytes : Nat := Numeral.maxWord64
  deriving DecidableEq, Repr

namespace PlannerConfig

def toJson (c : PlannerConfig) : Json :=
  .object [
    ("optimization_type", .string c.strategy.name),
    ("local_mem_budget_bytes", .nat c.localBudget),
    ("forced_exec_type", match c.forced with
      | some p => .string p.name
      | none => .null),
    ("allow_dyn_recompilation", .bool c.recompile),
    ("local_dims_threshold", .nat c.dimsThreshold),
    ("default_block_size", .nat c.blockSize),
    ("default_size_bytes", .nat c.defaultBytes)]

def fieldNames : List String :=
  ["optimization_type", "local_mem_budget_bytes", "forced_exec_type", "allow_dyn_recompilation",
    "local_dims_threshold", "default_block_size", "default_size_bytes"]

/-- a settings document; only the forced placement may be missing -/
def ofJson? (j : Json) : Option PlannerConfig := do
  match ← Json.fields? fieldNames j with
  | [strategy, localBudget, forced, recompile, dimsThreshold, blockSize, defaultBytes] =>
    return {
      strategy := ← Json.required? (fun j => j.variant?.bind Strategy.ofName?) strategy
      localBudget := ← Json.required? Json.word64? localBudget
      forced := ← Json.maybe? (fun j => j.variant?.bind Placement.ofName?) forced
      recompile := ← Json.required? Json.bool? recompile
      dimsThreshold := ← Json.required? Json.word64? dimsThreshold
      blockSize := ← Json.required? Json.word32? blockSize
      defaultBytes := ← Json.required? Json.word64? defaultBytes }
  | _ => none

/-- the defaults with the overrides of the environment -/
def ofEnvironment (env : String → Option String) : PlannerConfig :=
  let d : PlannerConfig := {}
  let word (name : String) (limit fallback : Nat) := ((env name).bind (Numeral.unsigned? limit)).getD fallback
  { strategy := ((env "MATFUSE_OPT_TYPE").bind fun s => (Strategy.parse s).toOption).getD d.strategy
    localBudget := word "MATFUSE_LOCAL_MEM_BUDGET" Numeral.maxWord64 d.localBudget
    forced := (env "MATFUSE_FORCE_EXEC_TYPE").bind fun s => (Placement.parse s).toOption
    recompile := ((env "MATFUSE_DYN_RECOMPILE").bind Numeral.flag?).getD d.recompile
    dimsThreshold := word "MATFUSE_LOCAL_DIMS_THRESHOLD" Numeral.maxWord64 d.dimsThreshold
    blockSize := word "MATFUSE_BLOCK_SIZE" Numeral.maxWord32 d.blockSize
    defaultBytes := d.defaultBytes }

end PlannerConfig

/-- the settings of row-wise runs -/
structure RunConfig where
  parallelCells : Nat := 0x100000
  parallelColumnBytes : Nat := 0x200000
  compressedBlockRows : Nat := 65536
  scratchBytes : Nat := 0x10000000
  maxTasks : Nat
  deriving DecidableEq, Repr

namespace RunConfig

def toJson (c : RunConfig) : Json :=
  .object [
    ("par_numcell_threshold", .nat c.parallelCells),
    ("par_col_agg_mem_threshold", .nat c.parallelColumnBytes),
    ("compressed_block_rows", .nat c.compressedBlockRows),
    ("scratch_cap_bytes", .nat c.scratchBytes),
    ("max_parallel_tasks", .nat c.maxTasks)]

def fieldNames : List String :=
  ["par_numcell_threshold", "par_col_agg_mem_threshold", "compressed_block_rows", "scratch_cap_bytes",
    "max_parallel_tasks"]

/-- a settings document with all fields -/
def ofJson? (j : Json) : Option RunConfig := do
  match ← (← Json.fields? fieldNames j).mapM (Json.required? Json.word64?) with
  | [parallelCells, parallelColumnBytes, compressedBlockRows, scratchBytes, maxTasks] =>
    return { parallelCells, parallelColumnBytes, compressedBlockRows, scratchBytes, maxTasks }
  | _ => none

/-- the number of tasks the environment asks for, at least one -/
def tasksOfEnvironment? (env : String → Option String) : Option Nat :=
  ((env "MATFUSE_MAX_PARALLEL_TASKS").bind (Numeral.unsigned? Numeral.maxWord64)).map (max · 1)

/-- the defaults for a machine with `cores` cores, with the overrides of the environment -/
def ofEnvironment (cores : Nat) (env : String → Option String) : RunConfig :=
  let d : RunConfig := { maxTasks := max cores 1 }
  let word (name : String) (fallback : Nat) :=
    ((env name).bind (Numeral.unsigned? Numeral.maxWord64)).getD fallback
  { parallelCells := word "MATFUSE_PAR_NUMCELL_THRESHOLD" d.parallelCells
    parallelColumnBytes := word "MATFUSE_PAR_COL_AGG_MEM" d.parallelColumnBytes
    compressedBlockRows :=
      (((env "MATFUSE_COMPRESSED_BLOCK_ROWS").bind (Numeral.unsigned? Numeral.maxWord64)).map (max · 1)).getD
        d.compressedBlockRows
    scratchBytes := word "MATFUSE_SCRATCH_CAP_BYTES" d.scratchBytes
    maxTasks := (tasksOfEnvironment? env).getD d.maxTasks }

end RunConfig

def consultedVariables : List String :=
  ["MATFUSE_OPT_TYPE", "MATFUSE_LOCAL_MEM_BUDGET", "MATFUSE_FORCE_EXEC_TYPE", "MATFUSE_DYN_RECOMPILE",
    "MATFUSE_LOCAL_DIMS_THRESHOLD", "MATFUSE_BLOCK_SIZE", "MATFUSE_PAR_NUMCELL_THRESHOLD", "MATFUSE_PAR_COL_AGG_MEM",
    "MATFUSE_COMPRESSED_BLOCK_ROWS", "MATFUSE_SCRATCH_CAP_BYTES", "MATFUSE_MAX_PARALLEL_TASKS"]

end MatrixEngine
