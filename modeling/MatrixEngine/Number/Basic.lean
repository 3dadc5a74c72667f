/-
The numbers of the engine: what a matrix can hold, and the sizes of what is held.

The engine is written over any `Cell` type, so that it runs on 64-bit floats and can be reasoned about over exact
numbers. `isZero` is the numeric test that both signed zeros pass; two cells are the same only if they are equal
as data, which for floats means the same bit pattern.

Sizes and byte counts are unsigned 64-bit words, kept as natural numbers. Estimates stop at the largest word, products of
sizes wrap around.
-/
import MatrixEngine.Text.Numeral

namespace MatrixEngine

/-! ## Cells -/

/-- a number type for matrix cells; `sumStart` is the value of an empty sum -/
class Cell (α : Type) extends Add α, Mul α where
  zero : α
  sumStart : α
  isZero : α → Bool
  ofNat : Nat → α
  isZero_zero : isZero zero = true

namespace Cell

variable {α : Type} [Cell α]

/-- the numeric test for a stored entry -/
def isNonZero (v : α) : Bool := !isZero v

/-- the sum of a list from left to right, starting from the empty sum -/
def sum (vs : List α) : α := vs.foldl (· + ·) sumStart

def countNonZero (vs : Array α) : Nat := vs.countP isNonZero

def zeros (n : Nat) : Array α := Array.replicate n zero

attribute [simp] isZero_zero

@[simp] theorem size_zeros (n : Nat) : (zeros n : Array α).size = n := by simp [zeros]

end Cell

/-- 64-bit floats; an empty sum is the negative zero, the only unit of addition -/
instance : Cell Float where
  zero := Float.ofBits 0
  sumStart := Float.ofBits 0x8000000000000000
  isZero v := v == Float.ofBits 0
  ofNat n := (UInt64.ofNat n).toFloat
  isZero_zero := by decide

/-! ## Words -/

def saturatingAdd (a b : Nat) : Nat := min (a + b) Numeral.maxWord64

def saturatingMul (a b : Nat) : Nat := min (a * b) Numeral.maxWord64

/-- how many words there are -/
def wordCount : Nat := 0x10000000000000000

/-- subtraction of words modulo `2 ^ 64` -/
def wrappingSub (a b : Nat) : Nat := (a + (wordCount - b)) % wordCount

/-- the word a number leaves when it wraps around -/
def wrapped (n : Nat) : Nat := n % wordCount

def total (counts : List Nat) : Nat := counts.foldr (· + ·) 0

@[simp] theorem total_nil : total [] = 0 := rfl

@[simp] theorem total_cons (n : Nat) (counts : List Nat) : total (n :: counts) = n + total counts := rfl

end MatrixEngine
