/-
The books of a memory budget over a history of requests and drops.

A ledger is a budget with the guards not dropped yet. Guards go in any order, and each goes once. Requests add with
saturation and drops subtract modulo the number of words, so the two only match while the bytes of the live guards are
a word: below the largest capacity a sum that saturates is refused, and at the largest capacity it is accepted.
- `Balanced.acquire_eq`, `Balanced.release_eq`: what a request and a drop make of balanced books.
- `balanced_after`: books stay balanced as long as no request takes the live bytes past the largest word unnoticed.
- `accounted_iff`: exactly then the budget counts what is held, grants what fits, and remembers its highest use.
-/
import Mathlib.Order.Bounds.Basic
import MatrixEngine.Memory.Budget
import MatrixEngine.Proofs.Number.Sums

namespace MatrixEngine

open Numeral (maxWord64)

/-- a budget and the guards over it that were not dropped yet -/
structure Ledger where
  budget : Budget
  live : List Guard
  deriving DecidableEq, Repr

/-- what happens to a budget -/
inductive BudgetOp where
  | acquire (bytes : Nat) (tag : String)
  /-- drop the live guard at a position -/
  | drop (position : Nat)
  deriving DecidableEq, Repr

namespace Ledger

def opened (capacity : Nat) : Ledger := ⟨.ofCapacity capacity, []⟩

def liveBytes (l : Ledger) : Nat := total (l.live.map (·.bytes))

def step (l : Ledger) : BudgetOp → Ledger
  | .acquire bytes tag =>
    match l.budget.acquire bytes tag with
    | .ok (g, budget) => ⟨budget, g :: l.live⟩
    | .error _ => l
  | .drop position =>
    match l.live[position]? with
    | some g => ⟨l.budget.release g, l.live.eraseIdx position⟩
    | none => l

/-- the ledger after a history from a new budget -/
def after (capacity : Nat) (ops : List BudgetOp) : Ledger := ops.foldl step (opened capacity)

/-! ## One operation -/

/-- books that agree with the live guards -/
structure Balanced (capacity : Nat) (l : Ledger) : Prop where
  capacity_eq : l.budget.capacity = capacity
  used_eq : l.budget.used = l.liveBytes
  used_le : l.budget.used ≤ capacity
  seen : l.budget.used ≤ l.budget.peak.value

variable {capacity : Nat} {l : Ledger}

theorem balanced_opened (capacity : Nat) : (opened capacity).Balanced capacity :=
  ⟨rfl, rfl, Nat.zero_le _, Nat.zero_le _⟩

/-- a request at balanced books: it is granted exactly if it asks for nothing or fits -/
theorem Balanced.acquire_eq (h : l.Balanced capacity) {bytes : Nat} (tag : String)
    (hword : capacity < maxWord64 ∨ l.liveBytes + bytes ≤ maxWord64) :
    l.budget.acquire bytes tag =
      if bytes = 0 ∨ l.liveBytes + bytes ≤ capacity then
        .ok (⟨bytes, tag⟩, ⟨capacity, l.liveBytes + bytes, l.budget.peak.record (l.liveBytes + bytes)⟩)
      else .error (.budgetExceeded tag bytes capacity l.liveBytes) := by
  obtain ⟨⟨cap, used, peak⟩, live⟩ := l
  obtain ⟨rfl, hused, hle, hseen⟩ := h
  generalize liveBytes _ = held at *
  change used = held at hused
  subst hused
  by_cases hzero : bytes = 0
  · have hpeak : peak.record used = peak := congrArg Peak.mk (Nat.max_eq_left hseen)
    simp [Budget.acquire, Budget.tryAcquire, hzero, hpeak]
  · -- a sum past the largest word saturates to it, which exceeds the capacity
    have hsum : saturatingAdd used bytes ≤ cap ↔ used + bytes ≤ cap := by
      rw [saturatingAdd]
      change used ≤ cap at hle
      dsimp only at hword
      omega
    by_cases hfits : used + bytes ≤ cap
    · have hexact : saturatingAdd used bytes = used + bytes := by
        rw [saturatingAdd]
        dsimp only at hword
        omega
      simp [Budget.acquire, Budget.tryAcquire, hzero, hfits, hexact]
    · simp [Budget.acquire, Budget.tryAcquire, hzero, hfits, hsum]

theorem liveBytes_eraseIdx {position : Nat} {g : Guard} {live : List Guard} (hg : live[position]? = some g) :
    total ((live.eraseIdx position).map (·.bytes)) + g.bytes = total (live.map (·.bytes)) := by
  induction live generalizing position with
  | nil => simp at hg
  | cons x live ih =>
    cases position with
    | zero =>
      obtain rfl : x = g := by simpa using hg
      exact Nat.add_comm _ _
    | succ position =>
      have hrest : total ((live.eraseIdx position).map (·.bytes)) + g.bytes = total (live.map (·.bytes)) :=
        ih (by simpa using hg)
      simp only [List.eraseIdx_cons_succ, List.map_cons, total_cons]
      omega

/-- a drop at balanced books takes the bytes of the guard off and leaves the highest use -/
theorem Balanced.release_eq (h : l.Balanced capacity) (hcap : capacity ≤ maxWord64) {position : Nat} {g : Guard}
    (hg : l.live[position]? = some g) :
    l.budget.release g = { l.budget with used := l.liveBytes - g.bytes } := by
  have hheld : g.bytes ≤ l.liveBytes := by
    rw [liveBytes, ← liveBytes_eraseIdx hg]
    omega
  have hused := h.used_eq
  have hle := h.used_le
  rw [Budget.release]
  split
  · rename_i hzero
    rw [hzero, Nat.sub_zero, ← hused]
  · have hback : wrappingSub l.budget.used g.bytes = l.liveBytes - g.bytes := by
      rw [wrappingSub, wordCount, hused]
      rw [maxWord64] at hcap
      omega
    rw [hback]

/-- no request takes the live bytes past the largest word unnoticed -/
def Noticed (capacity : Nat) (l : Ledger) : BudgetOp → Prop
  | .acquire bytes _ => capacity < maxWord64 ∨ l.liveBytes + bytes ≤ maxWord64
  | .drop _ => True

/-- books stay balanced, and the highest use goes up to the use of now -/
theorem Balanced.step (h : l.Balanced capacity) (hcap : capacity ≤ maxWord64) {op : BudgetOp}
    (hop : Noticed capacity l op) :
    (l.step op).Balanced capacity ∧
      (l.step op).budget.peak.value = max l.budget.peak.value (l.step op).budget.used := by
  cases op with
  | acquire bytes tag =>
    rw [Ledger.step, h.acquire_eq tag hop]
    split <;> rename_i b b' heq
    · split at heq
      · rename_i hfits
        obtain ⟨rfl, rfl⟩ := Prod.mk.inj (Except.ok.inj heq)
        have hused := h.used_eq
        have hle := h.used_le
        refine ⟨⟨rfl, Nat.add_comm _ _, ?_, Nat.le_max_right _ _⟩, rfl⟩
        change l.liveBytes + bytes ≤ capacity
        omega
      · cases heq
    · exact ⟨h, (Nat.max_eq_left h.seen).symm⟩
  | drop position =>
    rw [Ledger.step]
    split
    · rename_i g hg
      have hused := h.used_eq
      have hle := h.used_le
      have hseen := h.seen
      have herase := liveBytes_eraseIdx hg
      rw [h.release_eq hcap hg]
      refine ⟨⟨h.capacity_eq, ?_, ?_, ?_⟩, ?_⟩
      · change l.liveBytes - g.bytes = total ((l.live.eraseIdx position).map (·.bytes))
        rw [liveBytes]
        omega
      · change l.liveBytes - g.bytes ≤ capacity
        omega
      · change l.liveBytes - g.bytes ≤ l.budget.peak.value
        omega
      · change l.budget.peak.value = max l.budget.peak.value (l.liveBytes - g.bytes)
        omega
    · exact ⟨h, (Nat.max_eq_left h.seen).symm⟩

/-! ## Histories -/

variable {ops : List BudgetOp}

theorem after_take_succ {k : Nat} {op : BudgetOp} (hop : ops[k]? = some op) :
    after capacity (ops.take (k + 1)) = (after capacity (ops.take k)).step op := by
  rw [after, List.take_add_one, hop, Option.toList_some, List.foldl_append, List.foldl_cons, List.foldl_nil, after]

theorem after_take_of_none {k : Nat} (hop : ops[k]? = none) :
    after capacity (ops.take (k + 1)) = after capacity (ops.take k) := by
  rw [List.take_add_one, hop, Option.toList_none, List.append_nil]

/-- no request of a history takes the live bytes past the largest word unnoticed -/
def AllNoticed (capacity : Nat) (ops : List BudgetOp) : Prop :=
  ∀ k op, ops[k]? = some op → Noticed capacity (after capacity (ops.take k)) op

theorem balanced_after (hcap : capacity ≤ maxWord64) (hall : AllNoticed capacity ops) (k : Nat) :
    (after capacity (ops.take k)).Balanced capacity := by
  induction k with
  | zero => exact balanced_opened capacity
  | succ k ih =>
    cases hop : ops[k]? with
    | none => rwa [after_take_of_none hop]
    | some op =>
      rw [after_take_succ hop]
      exact (ih.step hcap (hall k op hop)).1

theorem isGreatest_peak (hcap : capacity ≤ maxWord64) (hall : AllNoticed capacity ops) (k : Nat) :
    IsGreatest {used | ∃ j ≤ k, (after capacity (ops.take j)).budget.used = used}
      (after capacity (ops.take k)).budget.peak.value := by
  induction k with
  | zero => exact ⟨⟨0, le_rfl, rfl⟩, by rintro _ ⟨j, hj, rfl⟩; rw [Nat.le_zero.1 hj]; exact le_rfl⟩
  | succ k ih =>
    have hsets : {used | ∃ j ≤ k + 1, (after capacity (ops.take j)).budget.used = used} =
        insert (after capacity (ops.take (k + 1))).budget.used
          {used | ∃ j ≤ k, (after capacity (ops.take j)).budget.used = used} := by
      ext used
      constructor
      · rintro ⟨j, hj, rfl⟩
        rcases Nat.le_succ_iff.1 hj with hj | rfl
        · exact .inr ⟨j, hj, rfl⟩
        · exact .inl rfl
      · rintro (rfl | ⟨j, hj, rfl⟩)
        · exact ⟨k + 1, le_rfl, rfl⟩
        · exact ⟨j, by omega, rfl⟩
    have hpeak : (after capacity (ops.take (k + 1))).budget.peak.value =
        max (after capacity (ops.take (k + 1))).budget.used (after capacity (ops.take k)).budget.peak.value := by
      have hbalanced := balanced_after hcap hall k
      cases hop : ops[k]? with
      | none => rw [after_take_of_none hop, Nat.max_eq_right hbalanced.seen]
      | some op => rw [after_take_succ hop, (hbalanced.step hcap (hall k op hop)).2, Nat.max_comm]
    rw [hsets, hpeak]
    exact ih.insert _

/-- exact accounts over a history: at every point of it the use is what the live guards hold, within the capacity; a
request is granted exactly if it asks for nothing or fits; a refusal says what was used and changes nothing; and the
highest use on record is the highest one so far -/
structure Accounted (capacity : Nat) (ops : List BudgetOp) : Prop where
  used : ∀ k, (after capacity (ops.take k)).budget.used = (after capacity (ops.take k)).liveBytes
  within : ∀ k, (after capacity (ops.take k)).budget.used ≤ capacity
  granted : ∀ k bytes tag, ops[k]? = some (.acquire bytes tag) →
    ((∃ g budget, (after capacity (ops.take k)).budget.acquire bytes tag = .ok (g, budget)) ↔
      bytes = 0 ∨ (after capacity (ops.take k)).liveBytes + bytes ≤ capacity)
  refused : ∀ k bytes tag e, ops[k]? = some (.acquire bytes tag) →
    (after capacity (ops.take k)).budget.acquire bytes tag = .error e →
    e = .budgetExceeded tag bytes capacity (after capacity (ops.take k)).liveBytes ∧
      after capacity (ops.take (k + 1)) = after capacity (ops.take k)
  peak : ∀ k, IsGreatest {used | ∃ j ≤ k, (after capacity (ops.take j)).budget.used = used}
    (after capacity (ops.take k)).budget.peak.value

theorem accounted_of_noticed (hcap : capacity ≤ maxWord64) (hall : AllNoticed capacity ops) :
    Accounted capacity ops where
  used k := (balanced_after hcap hall k).used_eq
  within k := (balanced_after hcap hall k).used_le
  granted k bytes tag hop := by
    rw [(balanced_after hcap hall k).acquire_eq tag (hall k _ hop)]
    split
    · rename_i hfits
      exact iff_of_true ⟨_, _, rfl⟩ hfits
    · rename_i hnot
      exact iff_of_false (fun ⟨_, _, h⟩ => nomatch h) hnot
  refused k bytes tag e hop herror := by
    have hsame : after capacity (ops.take (k + 1)) = after capacity (ops.take k) := by
      rw [after_take_succ hop, step, herror]
    rw [(balanced_after hcap hall k).acquire_eq tag (hall k _ hop)] at herror
    split at herror
    · cases herror
    · exact ⟨(Except.error.inj herror).symm, hsame⟩
  peak k := isGreatest_peak hcap hall k

/-- a request that takes the live bytes past the largest word is granted where the capacity is the largest word -/
theorem granted_of_unnoticed {bytes : Nat} (tag : String) (hcap : l.budget.capacity = maxWord64) :
    ∃ g budget, l.budget.acquire bytes tag = .ok (g, budget) := by
  have hsum : saturatingAdd l.budget.used bytes ≤ l.budget.capacity := hcap ▸ Nat.min_le_right _ _
  by_cases hzero : bytes = 0
  · simp [Budget.acquire, Budget.tryAcquire, hzero]
  · simp [Budget.acquire, Budget.tryAcquire, hzero, hsum]

theorem capacity_step (l : Ledger) (op : BudgetOp) : (l.step op).budget.capacity = l.budget.capacity := by
  cases op with
  | acquire bytes tag =>
    rw [step]
    split
    · rename_i g budget hok
      simp only [Budget.acquire, Budget.tryAcquire] at hok
      grind
    · rfl
  | drop position =>
    rw [step]
    split
    · rw [Budget.release]
      split <;> rfl
    · rfl

theorem capacity_after (capacity : Nat) (ops : List BudgetOp) : (after capacity ops).budget.capacity = capacity :=
  List.foldlRecOn ops step (motive := fun l => l.budget.capacity = capacity) rfl
    fun l hl op _ => (capacity_step l op).trans hl

/-- **A budget keeps exact accounts exactly if no request takes the live bytes past the largest word unnoticed**: below
the largest capacity over every history, and at the largest capacity over those histories whose live bytes always are a
word. There the saturated sum equals the capacity, so the request is granted, more is held than is counted, and the
next drops wrap around. -/
theorem accounted_iff (hcap : capacity ≤ maxWord64) :
    Accounted capacity ops ↔
      capacity < maxWord64 ∨ ∀ k bytes tag, ops[k]? = some (.acquire bytes tag) →
        (after capacity (ops.take k)).liveBytes + bytes ≤ maxWord64 := by
  constructor
  · intro h
    rcases Nat.lt_or_ge capacity maxWord64 with hlt | hge
    · exact .inl hlt
    · refine .inr fun k bytes tag hop => ?_
      have hmax : capacity = maxWord64 := hcap.antisymm hge
      have hheld : (after capacity (ops.take k)).liveBytes ≤ capacity := h.used k ▸ h.within k
      have hgranted := (h.granted k bytes tag hop).1
        (granted_of_unnoticed tag ((capacity_after capacity _).trans hmax))
      omega
  · intro h
    refine accounted_of_noticed hcap fun k op hop => ?_
    cases op with
    | acquire bytes tag => exact h.imp_right fun hall => hall k bytes tag hop
    | drop position => trivial

/-- 80 of 100 bytes are held, so 40 more are refused with what is used, and after the drop the highest use stays 80 -/
theorem refused_at_eighty :
    (after 100 [.acquire 80 "a"]).budget.acquire 40 "b" = .error (.budgetExceeded "b" 40 100 80) ∧
      (after 100 [.acquire 80 "a", .acquire 40 "b", .drop 0]).budget = ⟨100, 0, ⟨80⟩⟩ ∧
      Accounted 100 [.acquire 80 "a", .acquire 40 "b", .drop 0] :=
  ⟨by decide, by decide, (accounted_iff (by decide)).2 (.inl (by decide))⟩

/-- at the largest capacity one byte more is granted when all are held: more is held than is counted, and when nothing
is held any more the whole capacity counts as used -/
theorem saturated_request_granted :
    (after maxWord64 [.acquire maxWord64 "a", .acquire 1 "b"]).budget.used = maxWord64 ∧
      (after maxWord64 [.acquire maxWord64 "a", .acquire 1 "b"]).liveBytes = maxWord64 + 1 ∧
      after maxWord64 [.acquire maxWord64 "a", .acquire 1 "b", .drop 0, .drop 0] =
        ⟨⟨maxWord64, maxWord64, ⟨maxWord64⟩⟩, []⟩ ∧
      ¬ Accounted maxWord64 [.acquire maxWord64 "a", .acquire 1 "b"] :=
  ⟨by decide, by decide, by decide +kernel, fun h => absurd (h.used 2) (by decide)⟩

end Ledger

end MatrixEngine
