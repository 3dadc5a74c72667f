/-
Values read out of the documents that hold them.

An integer is read back if it is a word of the size that the reader of its field asks for, and the fields of a record are
found under their names, whatever else the record holds.
-/
import MatrixEngine.Proofs.Number.FloatText
import MatrixEngine.Text.Json.Reader

namespace MatrixEngine.Json

/-! ## Integers -/

theorem integer?_nat (n : Nat) : (nat n).integer? = some n := by
  have htext : (toString n).toList = Nat.toDigits 10 n := by
    rw [Nat.toString_eq_ofList_toDigits, String.toList_ofList]
  have hdigits : ∀ c ∈ Nat.toDigits 10 n, c.isDigit = true := fun _ hc => isDigit_of_toDigits hc
  simp only [nat, integer?, htext]
  rw [if_pos (List.all_eq_true.2 hdigits), Numeral.digits?_eq hdigits Nat.toDigits_ne_nil, Nat.ofDigitChars_ten_toDigits]

theorem unsigned?_nat {n limit : Nat} (h : n ≤ limit) : (nat n).unsigned? limit = some n := by
  rw [unsigned?, integer?_nat, Option.filter_some, if_pos (decide_eq_true h)]

theorem word64?_nat {n : Nat} (h : n ≤ Numeral.maxWord64) : (nat n).word64? = some n := unsigned?_nat h

theorem word32?_nat {n : Nat} (h : n ≤ Numeral.maxWord32) : (nat n).word32? = some n := unsigned?_nat h

theorem optional?_nat? {n : Option Nat} (h : ∀ k ∈ n, k ≤ Numeral.maxWord64) :
    optional? word64? (nat? n) = some n := by
  cases n with
  | none => rfl
  | some n =>
    have hword := word64?_nat (h n rfl)
    simp only [nat?, nat] at hword ⊢
    rw [optional?, hword]
    · rfl
    · simp

/-! ## Fields -/

section Fields

variable {members part : List (String × Json)} {name : String} {j : Json}

theorem occurrences_of_mem (h : (members.map Prod.fst).Nodup) (hj : (name, j) ∈ members) :
    occurrences members name = [j] := by
  induction members with
  | nil => cases hj
  | cons m members ih =>
    obtain ⟨hnew, hrest⟩ := List.nodup_cons.1 h
    rcases List.mem_cons.1 hj with rfl | hj
    · have hnone : occurrences members name = [] := by
        refine List.filterMap_eq_nil_iff.2 fun m hm => if_neg ?_
        rintro rfl
        exact hnew (List.mem_map.2 ⟨m, hm, rfl⟩)
      simp only [occurrences] at hnone
      simp [occurrences, hnone]
    · have hne : m.1 ≠ name := by
        rintro rfl
        exact hnew (List.mem_map.2 ⟨_, hj, rfl⟩)
      simp only [occurrences] at ih
      simp [occurrences, hne, ih hrest hj]

theorem field?_of_mem (h : (members.map Prod.fst).Nodup) (hj : (name, j) ∈ members) :
    field? members name = some (some j) := by
  rw [field?, occurrences_of_mem h hj]

/-- some of the fields of a record with distinct names, in any order -/
theorem mapM_field? (h : (members.map Prod.fst).Nodup) (hpart : ∀ m ∈ part, m ∈ members) :
    (part.map Prod.fst).mapM (field? members) = some (part.map fun m => some m.2) := by
  induction part with
  | nil => rfl
  | cons m part ih =>
    rw [List.map_cons, List.mapM_cons, field?_of_mem h (hpart m List.mem_cons_self),
      ih fun m' hm' => hpart m' (List.mem_cons_of_mem m hm')]
    rfl

/-- all fields of a record with distinct names, in their order -/
theorem fields?_own (h : (members.map Prod.fst).Nodup) :
    fields? (members.map Prod.fst) (object members) = some (members.map fun m => some m.2) :=
  mapM_field? h fun _ hm => hm

end Fields

end MatrixEngine.Json
