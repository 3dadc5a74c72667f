/-
Evaluation with a memo is plain recursion.

`plain` evaluates an operator from its inputs, again for every use. A memo is sound if each of its entries is the plain
value of the operator with that number (`Session.SoundMemo`). As long as operators of one number are one operator,
evaluation keeps the memo sound and ends as plain evaluation does (`eval_plain`), so a run does as well
(`evalRoots_plain`, `run_plain`).

A memo may also hold values of other times. `dated` is recursion in which each operator is read under bindings of its
own; if those of operators that the memo does not hold are the present ones, evaluation ends as this recursion does
(`value_dated`, `evals_dated`). What is said of plain recursion is the case in which all bindings are the present ones.
-/
import Mathlib.Tactic
import MatrixEngine.Physical.Session
import MatrixEngine.Proofs.Sequence

namespace MatrixEngine

/-- operators of one number, among these and all operators below them, are one operator -/
def Operator.NumbersTell (os : List Operator) : Prop :=
  ∀ a ∈ Operator.walkAll os, ∀ b ∈ Operator.walkAll os, a.number = b.number → a = b

namespace Session

variable {α : Type} [Cell α]

mutual

/-- the value of an operator by recursion alone -/
def plain (bound : String → Option (Block α)) : Operator → Except EvalError (Value α)
  | ⟨_, kind, _, output, _, _, inputs⟩ => do Value.apply bound kind output (← plainAll bound inputs)

def plainAll (bound : String → Option (Block α)) : List Operator → Except EvalError (List (Value α))
  | [] => .ok []
  | o :: rest => do
    let v ← plain bound o
    let vs ← plainAll bound rest
    return v :: vs

end

mutual

/-- the value of an operator by recursion, where each operator reads blocks as they are bound for its number -/
def dated (read : Nat → String → Option (Block α)) : Operator → Except EvalError (Value α)
  | ⟨number, kind, _, output, _, _, inputs⟩ => do Value.apply (read number) kind output (← datedAll read inputs)

def datedAll (read : Nat → String → Option (Block α)) : List Operator → Except EvalError (List (Value α))
  | [] => .ok []
  | o :: rest => do
    let v ← dated read o
    let vs ← datedAll read rest
    return v :: vs

end

mutual

theorem dated_const (bound : String → Option (Block α)) : ∀ o : Operator, dated (fun _ => bound) o = plain bound o
  | ⟨_, _, _, _, _, _, inputs⟩ => by rw [dated, plain, datedAll_const bound inputs]

theorem datedAll_const (bound : String → Option (Block α)) : ∀ os : List Operator,
    datedAll (fun _ => bound) os = plainAll bound os
  | [] => rfl
  | o :: rest => by rw [datedAll, plainAll, dated_const bound o, datedAll_const bound rest]

end

def datedMatrix (read : Nat → String → Option (Block α)) (o : Operator) : Except EvalError (Dense α) := do
  match ← dated read o with
  | .matrix d => return d
  | .cells _ => throw (.cellsResult o.kind.label)

/-- the matrix of an operator by recursion alone -/
def plainMatrix (bound : String → Option (Block α)) (o : Operator) : Except EvalError (Dense α) := do
  match ← plain bound o with
  | .matrix d => return d
  | .cells _ => throw (.cellsResult o.kind.label)

theorem datedMatrix_const (bound : String → Option (Block α)) (o : Operator) :
    datedMatrix (fun _ => bound) o = plainMatrix bound o := by
  rw [datedMatrix, plainMatrix, dated_const]

/-! ## Memos -/

/-- an operator that the memo holds is not evaluated, any other is after its inputs -/
theorem value_eq (o : Operator) (s : Session α) : value o s =
    (s.memo.lookup o.number).elim (values o.inputs >>= applyNoted o.number o.kind o.output) pure s := by
  obtain ⟨number, kind, placement, output, correction, position, inputs⟩ := o
  have hget : (get : SessionM α (Session α)) s = .ok s s := rfl
  rw [value, bind_apply, hget]
  cases hmemo : s.memo.lookup number <;> simp only [hmemo] <;> rfl

/-- what the memo holds for a number is the plain value of the operator of that number -/
def SoundMemo (all : List Operator) (s : Session α) : Prop :=
  ∀ n v, s.memo.lookup n = some v → ∃ o ∈ all, o.number = n ∧ plain s.bindings.get? o = .ok v

/-- a step ends as plain evaluation says, with the bindings as they were and a sound memo -/
def EndsAs {β : Type} (all : List Operator) (s : Session α) (r : Except EvalError β) (m : SessionM α β) : Prop :=
  ∃ s', m s = ended r s' ∧ s'.bindings = s.bindings ∧ SoundMemo all s'

/-- what the memo holds for a number is the value of the operator of that number, and the operators of other numbers are
read as blocks are bound at present -/
structure DatedMemo (all : List Operator) (read : Nat → String → Option (Block α)) (s : Session α) : Prop where
  sound : ∀ n v, s.memo.lookup n = some v → ∃ o ∈ all, o.number = n ∧ dated read o = .ok v
  present : ∀ n, s.memo.lookup n = none → read n = s.bindings.get?

/-- a step ends as recursion with these dates says, with the bindings as they were and a memo of these dates -/
def EndsDated {β : Type} (all : List Operator) (read : Nat → String → Option (Block α)) (s : Session α)
    (r : Except EvalError β) (m : SessionM α β) : Prop :=
  ∃ s', m s = ended r s' ∧ s'.bindings = s.bindings ∧ DatedMemo all read s'

variable {all : List Operator} {read : Nat → String → Option (Block α)}

theorem EndsDated.bind {β γ : Type} {s : Session α} {r : Except EvalError β} {m : SessionM α β}
    {g : β → Except EvalError γ} {f : β → SessionM α γ} (hm : EndsDated all read s r m)
    (hf : ∀ v, r = .ok v → ∀ s', s'.bindings = s.bindings → DatedMemo all read s' → EndsDated all read s' (g v) (f v)) :
    EndsDated all read s (r >>= g) (m >>= f) := by
  obtain ⟨s₁, hm, hbindings, hs₁⟩ := hm
  unfold EndsDated
  rw [bind_apply, hm]
  cases r with
  | error e => exact ⟨s₁, rfl, hbindings, hs₁⟩
  | ok v =>
    obtain ⟨s₂, hf, hbindings', hs₂⟩ := hf v rfl s₁ hbindings hs₁
    exact ⟨s₂, hf, hbindings'.trans hbindings, hs₂⟩

theorem applyNoted_dated {s : Session α} (hs : DatedMemo all read s) {o : Operator} (ho : o ∈ all)
    (hread : read o.number = s.bindings.get?) {args : List (Value α)} (hargs : datedAll read o.inputs = .ok args) :
    EndsDated all read s (dated read o) (applyNoted o.number o.kind o.output args) := by
  obtain ⟨number, kind, placement, output, correction, position, inputs⟩ := o
  have hdated : dated read ⟨number, kind, placement, output, correction, position, inputs⟩ =
      Value.apply s.bindings.get? kind output args := by
    simp only at hargs hread
    rw [dated, hargs, hread]
    rfl
  unfold EndsDated applyNoted
  rw [hdated]
  cases happly : Value.apply s.bindings.get? kind output args with
  | error e => exact ⟨s, by simp only [ended], rfl, hs⟩
  | ok v =>
    refine ⟨{ s with memo := (number, v) :: s.memo }, by simp only [ended], rfl, fun n w hw => ?_, fun n hn => ?_⟩
    · by_cases hn : n = number
      · subst hn
        rw [List.lookup_cons_self, Option.some.injEq] at hw
        exact ⟨_, ho, rfl, hw ▸ hdated.trans happly⟩
      · have hne : (n == number) = false := by simpa using hn
        rw [List.lookup_cons, hne] at hw
        exact hs.sound n w hw
    · rw [List.lookup_cons] at hn
      cases hnumber : n == number with
      | true => simp [hnumber] at hn
      | false =>
        rw [hnumber] at hn
        exact hs.present n hn

mutual

/-- **Evaluation with a memo** ends as recursion does, where what the memo holds is read as of its own time. -/
theorem value_dated (hall : ∀ a ∈ all, ∀ b ∈ all, a.number = b.number → a = b) :
    ∀ (o : Operator), (∀ x ∈ o.walk, x ∈ all) → ∀ s : Session α, DatedMemo all read s →
      EndsDated all read s (dated read o) (value o)
  | ⟨number, kind, placement, output, correction, position, inputs⟩, ho, s, hs => by
    have hself : (⟨number, kind, placement, output, correction, position, inputs⟩ : Operator) ∈ all :=
      ho _ (by simp [Operator.walk])
    have hbelow : ∀ x ∈ Operator.walkAll inputs, x ∈ all := fun x hx => ho x (by simp [Operator.walk, hx])
    unfold EndsDated
    rw [value_eq]
    cases hmemo : s.memo.lookup number with
    | some v =>
      -- the number tells the operator, so the memo holds its value
      obtain ⟨o, ho, hnumber, hdated⟩ := hs.sound number v hmemo
      obtain rfl := hall o ho _ hself hnumber
      rw [hdated]
      exact ⟨s, rfl, rfl, hs⟩
    | none =>
      have hread := hs.present number hmemo
      have hdated : dated read ⟨number, kind, placement, output, correction, position, inputs⟩ =
          datedAll read inputs >>= Value.apply (read number) kind output := by
        rw [dated]
      have hinputs := values_dated hall inputs hbelow s hs
      rw [hdated]
      refine hinputs.bind fun args hargs s' hbindings hs' => ?_
      have happly := applyNoted_dated hs' hself (hread.trans (by rw [hbindings])) hargs
      rw [hdated, hargs] at happly
      exact happly

theorem values_dated (hall : ∀ a ∈ all, ∀ b ∈ all, a.number = b.number → a = b) :
    ∀ (os : List Operator), (∀ x ∈ Operator.walkAll os, x ∈ all) → ∀ s : Session α, DatedMemo all read s →
      EndsDated all read s (datedAll read os) (values os)
  | [], _, s, hs => ⟨s, rfl, rfl, hs⟩
  | o :: rest, ho, s, hs => by
    have hvalue := value_dated hall o (fun x hx => ho x (by simp [Operator.walkAll, hx])) s hs
    rw [datedAll, values]
    refine hvalue.bind fun v _ s' _ hs' => ?_
    have hvalues := values_dated hall rest (fun x hx => ho x (by simp [Operator.walkAll, hx])) s' hs'
    exact hvalues.bind fun vs _ s'' _ hs'' => ⟨s'', rfl, rfl, hs''⟩

end

theorem eval_dated (hall : ∀ a ∈ all, ∀ b ∈ all, a.number = b.number → a = b) (o : Operator)
    (ho : ∀ x ∈ o.walk, x ∈ all) (s : Session α) (hs : DatedMemo all read s) :
    EndsDated all read s (datedMatrix read o) (eval o) := by
  refine (value_dated hall o ho s hs).bind fun v _ s' _ hs' => ?_
  cases v with
  | matrix d => exact ⟨s', rfl, rfl, hs'⟩
  | cells cs => exact ⟨s', rfl, rfl, hs'⟩

theorem evals_dated (hall : ∀ a ∈ all, ∀ b ∈ all, a.number = b.number → a = b) (os : List Operator) :
    (∀ x ∈ Operator.walkAll os, x ∈ all) → ∀ s : Session α, DatedMemo all read s →
      EndsDated all read s (os.mapM (datedMatrix read)) (os.mapM eval) := by
  induction os with
  | nil => exact fun _ s hs => ⟨s, rfl, rfl, hs⟩
  | cons o rest ih =>
    intro ho s hs
    rw [List.mapM_cons, List.mapM_cons]
    refine (eval_dated hall o (fun x hx => ho x (by simp [Operator.walkAll, hx])) s hs).bind fun d _ s' _ hs' => ?_
    have hrest := ih (fun x hx => ho x (by simp [Operator.walkAll, hx])) s' hs'
    exact hrest.bind fun ds _ s'' _ hs'' => ⟨s'', rfl, rfl, hs''⟩

/-! ## Memos of the present -/

theorem datedMemo_emptied (s : Session α) :
    DatedMemo all (fun _ => s.bindings.get?) ({ s with memo := [] } : Session α) :=
  ⟨fun _ _ hv => (by cases hv), fun _ _ => rfl⟩

theorem datedMemo_const {s : Session α} : DatedMemo all (fun _ => s.bindings.get?) s ↔ SoundMemo all s := by
  constructor
  · intro h n v hv
    obtain ⟨o, ho, hnumber, hdated⟩ := h.sound n v hv
    exact ⟨o, ho, hnumber, (dated_const _ o).symm.trans hdated⟩
  · refine fun h => ⟨fun n v hv => ?_, fun _ _ => rfl⟩
    obtain ⟨o, ho, hnumber, hplain⟩ := h n v hv
    exact ⟨o, ho, hnumber, (dated_const _ o).trans hplain⟩

theorem EndsDated.endsAs {β : Type} {s : Session α} {r : Except EvalError β} {m : SessionM α β}
    (h : EndsDated all (fun _ => s.bindings.get?) s r m) : EndsAs all s r m := by
  obtain ⟨s', hm, hbindings, hs'⟩ := h
  rw [← hbindings] at hs'
  exact ⟨s', hm, hbindings, datedMemo_const.1 hs'⟩

/-- **Evaluation with a sound memo** ends as plain evaluation. -/
theorem eval_plain (hall : ∀ a ∈ all, ∀ b ∈ all, a.number = b.number → a = b) (o : Operator)
    (ho : ∀ x ∈ o.walk, x ∈ all) (s : Session α) (hs : SoundMemo all s) :
    EndsAs all s (plainMatrix s.bindings.get? o) (eval o) := by
  have heval := eval_dated hall o ho s (datedMemo_const.2 hs)
  rw [datedMatrix_const] at heval
  exact heval.endsAs

theorem evals_plain (hall : ∀ a ∈ all, ∀ b ∈ all, a.number = b.number → a = b) (os : List Operator)
    (ho : ∀ x ∈ Operator.walkAll os, x ∈ all) (s : Session α) (hs : SoundMemo all s) :
    EndsAs all s (os.mapM (plainMatrix s.bindings.get?)) (os.mapM eval) := by
  have hevals := evals_dated hall os ho s (datedMemo_const.2 hs)
  rw [funext (datedMatrix_const s.bindings.get?)] at hevals
  exact hevals.endsAs

/-! ## Runs -/

/-- the roots of a plan end as plain evaluation, whatever was in the memo -/
theorem evalRoots_plain {p : Program} (h : Operator.NumbersTell p.roots) (s : Session α) :
    ∃ s', evalRoots p s = ended (p.roots.mapM (plainMatrix s.bindings.get?)) s' ∧ s'.bindings = s.bindings := by
  have hs : SoundMemo (Operator.walkAll p.roots) ({ s with memo := [] } : Session α) :=
    datedMemo_const.1 (datedMemo_emptied s)
  obtain ⟨s', hrun, hbindings, -⟩ := evals_plain h p.roots (fun _ hx => hx) _ hs
  exact ⟨s', hrun, hbindings⟩

theorem run_eq [CellText α] (p : Program) (started finished : Nat) (s : Session α) :
    run p started finished s =
      match evalRoots p s with
      | .ok results s' => .ok ⟨results, {
          plan := p.fingerprint
          version := Digest.version
          inputs := some s.bindings.digest
          outputs := some (outputsDigest results)
          operators := s'.memo.length
          started := started
          finished := finished }⟩ s'
      | .error e s' => .error e s' := by
  change (evalRoots p >>= _) s = _
  rw [bind_apply]
  cases evalRoots p s <;> rfl

/-- **A run delivers what plain evaluation of the roots does**, and nothing if one of them fails. -/
theorem run_plain [CellText α] {p : Program} (h : Operator.NumbersTell p.roots) (started finished : Nat)
    (s : Session α) (ds : List (Dense α)) :
    (∃ out s', run p started finished s = .ok out s' ∧ out.results = ds) ↔
      p.roots.mapM (plainMatrix s.bindings.get?) = .ok ds := by
  obtain ⟨s₁, hroots, -⟩ := evalRoots_plain h s
  rw [run_eq, hroots]
  cases p.roots.mapM (plainMatrix s.bindings.get?) with
  | error e => simp [ended]
  | ok results =>
    simp only [ended, Except.ok.injEq]
    constructor
    · rintro ⟨out, s', hout, rfl⟩
      obtain ⟨rfl, -⟩ := EStateM.Result.ok.inj hout
      rfl
    · rintro rfl
      exact ⟨_, _, rfl, rfl⟩

end Session

end MatrixEngine
