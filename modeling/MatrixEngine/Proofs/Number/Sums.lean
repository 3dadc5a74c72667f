/-
Sums of counts, taken apart along the list, and sums of numbers.

Exact arithmetic is what is asked of the numbers where a sum must not depend on how it is bracketed (`ExactSum`), and
where a product may be left out if one of its factors is zero (`ExactProduct`). Floats are no such numbers, since they
round; integers are both, so runs over them show what a run adds up and where.
-/
import Mathlib.Tactic
import MatrixEngine.Number.Basic
import MatrixEngine.Number.Decimal

namespace MatrixEngine

/-! ## Counts -/

theorem total_append (a b : List Nat) : total (a ++ b) = total a + total b := by
  induction a with
  | nil => simp
  | cons n a ih => simp [ih]; omega

theorem total_reverse (a : List Nat) : total a.reverse = total a := by
  induction a with
  | nil => rfl
  | cons n a ih => simp [total_append, ih]; omega

theorem total_map_range_succ (n : Nat) (f : Nat → Nat) :
    total ((List.range (n + 1)).map f) = total ((List.range n).map f) + f n := by
  simp [List.range_succ, total_append]

theorem total_map_length {α : Type} (parts : List (List α)) : total (parts.map List.length) = parts.flatten.length := by
  induction parts with
  | nil => rfl
  | cons part parts ih => simp [ih]

theorem foldl_add_eq_total {ι : Type} (f : ι → Nat) (l : List ι) (start : Nat) :
    l.foldl (fun n i => n + f i) start = start + total (l.map f) := by
  induction l generalizing start with
  | nil => rfl
  | cons i l ih => simp [ih, Nat.add_assoc]

theorem total_eq_zero_iff {counts : List Nat} : total counts = 0 ↔ ∀ n ∈ counts, n = 0 := by
  induction counts with
  | nil => simp
  | cons n counts ih => simp [ih]

theorem total_map_add {ι : Type} (f g : ι → Nat) (l : List ι) :
    total (l.map fun x => f x + g x) = total (l.map f) + total (l.map g) := by
  induction l with
  | nil => rfl
  | cons x l ih =>
    simp only [List.map_cons, total_cons, ih]
    omega

theorem total_comm {ι κ : Type} (f : ι → κ → Nat) (xs : List ι) (ys : List κ) :
    total (xs.map fun x => total (ys.map (f x))) = total (ys.map fun y => total (xs.map fun x => f x y)) := by
  induction xs with
  | nil =>
    refine (total_eq_zero_iff.2 ?_).symm
    simp
  | cons x xs ih => simp only [List.map_cons, total_cons, ih, total_map_add]

/-- a sum of ones for the elements with a property -/
theorem total_indicator {ι : Type} (q : ι → Prop) [DecidablePred q] (l : List ι) :
    total (l.map fun x => if q x then 1 else 0) = l.countP fun x => q x := by
  induction l with
  | nil => rfl
  | cons x l ih =>
    rw [List.map_cons, total_cons, ih, List.countP_cons, Nat.add_comm]
    simp only [decide_eq_true_eq]

theorem total_of_even {counts : List Nat} {w : Nat} (h : ∀ n ∈ counts, n = w) : total counts = counts.length * w := by
  induction counts with
  | nil => simp
  | cons n counts ih =>
    obtain ⟨rfl, hrest⟩ := List.forall_mem_cons.1 h
    rw [total_cons, ih hrest, List.length_cons, Nat.succ_mul, Nat.add_comm]

/-! ## Exact numbers -/

/-- addition is associative, with zero for its unit -/
class ExactSum (α : Type) [Cell α] : Prop where
  add_assoc : ∀ a b c : α, a + b + c = a + (b + c)
  zero_add : ∀ a : α, Cell.zero + a = a
  add_zero : ∀ a : α, a + Cell.zero = a

/-- multiplication is commutative, a zero makes a product zero, and adding a zero changes nothing -/
class ExactProduct (α : Type) [Cell α] : Prop where
  mul_comm : ∀ a b : α, a * b = b * a
  zero_mul : ∀ a b : α, Cell.isZero a = true → Cell.isZero (a * b) = true
  add_zero : ∀ a b : α, Cell.isZero b = true → a + b = a

theorem ExactProduct.mul_zero {α : Type} [Cell α] [ExactProduct α] (a b : α) (h : Cell.isZero b = true) :
    Cell.isZero (a * b) = true := by
  rw [ExactProduct.mul_comm]
  exact ExactProduct.zero_mul b a h

instance : Cell Int where
  zero := 0
  sumStart := 0
  isZero v := v == 0
  ofNat n := n
  isZero_zero := rfl

instance : CellText Int := ⟨toString⟩

instance : ExactSum Int where
  add_assoc := Int.add_assoc
  zero_add := Int.zero_add
  add_zero := Int.add_zero

instance : ExactProduct Int where
  mul_comm := Int.mul_comm
  zero_mul a b h := by
    obtain rfl : a = 0 := beq_iff_eq.1 h
    exact beq_iff_eq.2 (Int.zero_mul b)
  add_zero a b h := by
    obtain rfl : b = 0 := beq_iff_eq.1 h
    exact Int.add_zero a

end MatrixEngine
