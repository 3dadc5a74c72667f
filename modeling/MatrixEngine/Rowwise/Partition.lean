/-
Row ranges for parallel runs.

Compressed blocks are cut at multiples of an alignment. Other blocks are cut into chunks of equal length, one per
task while the block is small and up to eight per task when it is large; large sparse blocks are cut where the
entries are, so that chunks weigh about the same.
-/
import MatrixEngine.Block.Basic
import MatrixEngine.Config

namespace MatrixEngine

structure RowRange where
  start : Nat
  stop : Nat
  deriving DecidableEq, Repr

def RowRange.size (r : RowRange) : Nat := r.stop - r.start

namespace Partition

def ceilDiv (a b : Nat) : Nat := (a + b - 1) / b

/-- chunks per task of a large block -/
def oversubscription : Nat := 8

/-- rows a chunk of a large block should have -/
def rowsPerChunk : Nat := 32

/-- `min len k` sizes that differ by at most one, the longer ones first -/
def balancedSizes (len k : Nat) : List Nat :=
  let nk := min len (max k 1)
  (List.range nk).map fun i => len / nk + if i < len % nk then 1 else 0

/-- sizes of `⌈len / k⌉` rounded up to a multiple of `align`; the last one may be shorter -/
def alignedSizes (len k align : Nat) : List Nat :=
  let align := max align 1
  let block := ceilDiv (ceilDiv len (max k 1)) align * align
  (List.range (ceilDiv len block)).map fun i => min block (len - i * block)

/-- number of chunks for `len` rows: a multiple of `k`, or `k` itself; no multiple of zero exists -/
def chunkCount? (len k : Nat) (constant : Bool) : Option Nat :=
  if constant then some k
  else if k = 0 then none
  else some (ceilDiv (max (min (oversubscription * k) (len / rowsPerChunk)) k) k * k)

/-- the state of a cut by weight: sizes so far in reverse, where the open chunk starts, and the weight so far -/
structure Cut where
  sizes : List Nat := []
  start : Nat := 0
  weight : Nat := 0

/-- take row `i` in, and close the chunk when its target is reached or every later row is needed for a chunk -/
def Cut.step (len nk total : Nat) (weight : Nat → Nat) (c : Cut) (i : Nat) : Cut :=
  let acc := wrapped (c.weight + weight i)
  let chunksLeft := nk - c.sizes.length
  let rowsLeft := len - (i + 1)
  let target := wrapped (total * (c.sizes.length + 1)) / nk
  if 1 < chunksLeft ∧ chunksLeft - 1 ≤ rowsLeft ∧ (target ≤ acc ∨ rowsLeft < chunksLeft) then
    { sizes := (i + 1 - c.start) :: c.sizes, start := i + 1, weight := acc }
  else
    { c with weight := acc }

def totalWeight (len : Nat) (weight : Nat → Nat) : Nat := wrapped (total ((List.range len).map weight))

/-- `nk` sizes, or `len` if that is less, of about the same total weight -/
def weightedSizes (len nk : Nat) (weight : Nat → Nat) : List Nat :=
  let nk := min len (max nk 1)
  if nk = 0 then []
  else
    let cut := (List.range len).foldl (Cut.step len nk (totalWeight len weight) weight) {}
    (cut.sizes.reverse ++ [len - cut.start])

/-- sizes laid end to end from `start` on; empty ones are dropped -/
def rangesFrom (start : Nat) : List Nat → List RowRange
  | [] => []
  | n :: rest => if n = 0 then rangesFrom start rest else ⟨start, start + n⟩ :: rangesFrom (start + n) rest

def rowWeight {α : Type} [Cell α] (s : Sparse α) (i : Nat) : Nat := s.size i + 1

variable {α : Type} [Cell α] [DecidableEq α]

/-- chunk sizes for a block and `k` tasks; none if a multiple of zero tasks is asked for -/
def sizes? (b : Block α) (k : Nat) (config : RunConfig) : Option (List Nat) :=
  match b with
  | .compressed c => some (alignedSizes c.rows k config.compressedBlockRows)
  | b =>
    let small := b.cells < wrapped (16 * config.parallelCells)
    (chunkCount? b.rows k small).map fun nk =>
      match b with
      | .sparse s => if small then balancedSizes b.rows nk else weightedSizes b.rows nk (rowWeight s)
      | b => balancedSizes b.rows nk

/-- row ranges over all rows of a block for `k` tasks -/
def plan? (b : Block α) (k : Nat) (config : RunConfig) : Option (List RowRange) :=
  (sizes? b k config).map (rangesFrom 0)

end Partition

end MatrixEngine
