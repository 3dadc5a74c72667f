/-
Writes of row kernels into an output buffer, and the reductions they use.

A `Write` is a change of a buffer together with the test that all cells it addresses are there. It keeps the size of
the buffer. Dense operands address a window from the offset on; sparse operands address single cells behind the
offset. An outer product is a sequence of writes, one per non-zero multiplier, and is laid out transposed when the
left operand is long.
-/
import MatrixEngine.Number.Basic

namespace MatrixEngine

open Cell

variable {α : Type} [Cell α]

/-- the sum of the products of two operands, as far as both go -/
def dot (a b : Array α) : α := Cell.sum (a.toList.zipWith (· * ·) b.toList)

/-- the products of sparse entries with the dense cells they meet; none if an index is outside -/
def dotTerms? (entries : List (Nat × α)) (b : Array α) : Option (List α) :=
  entries.mapM fun (j, v) => b[j]?.map (v * ·)

/-- the sum of the products of a sparse operand with a dense one; none if an index is outside -/
def dotSparse? (entries : List (Nat × α)) (b : Array α) : Option α := (dotTerms? entries b).map Cell.sum

/-- the cells of a dense operand with their positions -/
def denseEntries (a : Array α) : List (Nat × α) := (List.range a.size).zip a.toList

/-- the entries of a sparse operand, as far as both columns and values go -/
def sparseEntries (cols : Array Nat) (vals : Array α) : List (Nat × α) := cols.toList.zip vals.toList

def modifyCell {n : Nat} (c : Vector α n) (k : Nat) (f : α → α) : Vector α n :=
  ⟨c.toArray.modify k f, by rw [Array.size_modify, c.size_toArray]⟩

/-- combine each entry `(j, v)` into cell `ci + j`, in order -/
def scatter {n : Nat} (f : α → α → α) (entries : List (Nat × α)) (ci : Nat) (c : Vector α n) : Vector α n :=
  entries.foldl (fun c (j, v) => modifyCell c (ci + j) (f · v)) c

def clearWindow {n : Nat} (ci len : Nat) (c : Vector α n) : Vector α n :=
  (List.range len).foldl (fun c j => modifyCell c (ci + j) fun _ => zero) c

/-- a change of a buffer; `fits` tells whether a buffer of the given size has all cells it addresses -/
structure Write (α : Type) where
  fits : Nat → Bool
  apply : {n : Nat} → Vector α n → Vector α n

namespace Write

def skip : Write α := ⟨fun _ => true, fun c => c⟩

def andThen (v w : Write α) : Write α := ⟨fun n => v.fits n && w.fits n, fun c => w.apply (v.apply c)⟩

def all (ws : List (Write α)) : Write α := ws.foldr andThen skip

/-- combine a dense operand into the window at `ci` -/
def window (f : α → α → α) (a : Array α) (ci : Nat) : Write α where
  fits n := ci + a.size ≤ n
  apply c := scatter f (denseEntries a) ci c

/-- combine sparse entries into the cells behind `ci` -/
def points (f : α → α → α) (entries : List (Nat × α)) (ci : Nat) : Write α where
  fits n := entries.all fun (j, _) => ci + j < n
  apply c := scatter f entries ci c

def clear (ci len : Nat) : Write α where
  fits n := ci + len ≤ n
  apply c := clearWindow ci len c

def cell (ci : Nat) (f : α → α) : Write α where
  fits n := ci < n
  apply c := modifyCell c ci f

/-- add a dense operand times `s` -/
def multAdd (a : Array α) (s : α) (ci : Nat) : Write α := window (fun c x => c + x * s) a ci

def multAddSparse (entries : List (Nat × α)) (s : α) (ci : Nat) : Write α :=
  points (fun c x => c + x * s) entries ci

/-- overwrite by a dense operand times `s` -/
def multPut (a : Array α) (s : α) (ci : Nat) : Write α := window (fun _ x => x * s) a ci

/-- overwrite a window of `len` cells by a sparse operand -/
def putSparse (entries : List (Nat × α)) (len ci : Nat) : Write α :=
  (clear ci len).andThen (points (fun _ x => x) entries ci)

def add (a : Array α) (ci : Nat) : Write α := window (fun c x => c + x) a ci

def addSparse (entries : List (Nat × α)) (ci : Nat) : Write α := points (fun c x => c + x) entries ci

/-- a left operand of length `len1` is long beside a right operand of length `len2` -/
def flipsOuter (len1 len2 : Nat) : Bool := len1 > 64 * len2

/-- add the outer product of two dense operands, row by row, or column by column if it is flipped -/
def outer (a b : Array α) (ci : Nat) : Write α :=
  if flipsOuter a.size b.size then
    all (((denseEntries b).filter (isNonZero ·.2)).map fun (j, s) => multAdd a s (ci + j * a.size))
  else
    all (((denseEntries a).filter (isNonZero ·.2)).map fun (i, s) => multAdd b s (ci + i * b.size))

/-- add the outer product of a sparse left operand of logical length `len1` with a dense one -/
def outerSparse (entries : List (Nat × α)) (len1 : Nat) (b : Array α) (ci : Nat) : Write α :=
  if flipsOuter len1 b.size then
    all (((denseEntries b).filter (isNonZero ·.2)).map fun (j, s) => multAddSparse entries s (ci + j * len1))
  else
    all (entries.map fun (i, s) => multAdd b s (ci + i * b.size))

/-- the buffer after a write, if the write fits -/
def run? (w : Write α) (c : Array α) : Option (Array α) :=
  if w.fits c.size then some (w.apply c.toVector).toArray else none

end Write

end MatrixEngine
