/-
Evaluation between rebindings.

A run begins with an empty memo. Evaluating an operator by itself does not, and binding a block leaves the memo alone, so
that a value computed before a binding is met again after it. Each operator has a date, the bindings as of which it is
read: of what the memo holds, those in force when it was put there, and of all else the present ones (`redated`).
- `value_grows`: evaluation, also one that fails, leaves a memo that with an operator holds those below it; so a value in
  the memo has one date for each operator that it depends on.
- `DatedAfter.after`, `datedAfter_track`: after any calls what the memo holds is dated.
- `eval_as_of`: hence evaluation ends as recursion as of these dates does. It sees the present bindings if the blocks that
  it reads were bound at the last run and whenever an operator was evaluated since; `rebound_block_is_missed` is an
  evaluation that does not.
-/
import MatrixEngine.Proofs.Physical.Memo

namespace MatrixEngine

theorem Operator.mem_walkAll_iff_exists {x : Operator} {os : List Operator} :
    x ∈ walkAll os ↔ ∃ o ∈ os, x ∈ o.walk := by
  induction os with
  | nil => simp [walkAll]
  | cons o rest ih => simp [walkAll, ih]

/-- what is asked of a session: bind a block to a name, evaluate an operator, or run a plan -/
inductive SessionCall (α : Type) where
  | bind (name : String) (b : Block α)
  | eval (o : Operator)
  | run (p : Program) (started finished : Nat)

namespace SessionCall

variable {α : Type}

def operators : SessionCall α → List Operator
  | bind _ _ => []
  | eval o => [o]
  | run p _ _ => p.roots

/-- the call evaluates operators -/
def evaluates : SessionCall α → Bool
  | bind _ _ => false
  | _ => true

/-- the call empties the memo first -/
def isRun : SessionCall α → Bool
  | run _ _ _ => true
  | _ => false

end SessionCall

namespace Session

variable {α : Type}

/-! ## The memo after steps that may fail -/

variable [Cell α] {all : List Operator} {s s' s'' : Session α}

/-- the memo holds what it held, and with an operator those below it -/
structure Grows (all : List Operator) (s s' : Session α) : Prop where
  closed : ClosedMemo all s'
  kept : ∀ n ∈ s.noted, n ∈ s'.noted

omit [Cell α] in
theorem Grows.refl (h : ClosedMemo all s) : Grows all s s := ⟨h, fun _ hn => hn⟩

omit [Cell α] in
theorem Grows.trans (h : Grows all s s') (h' : Grows all s' s'') : Grows all s s'' :=
  ⟨h'.closed, fun n hn => h'.kept n (h.kept n hn)⟩

omit [Cell α] in
theorem Grows.bind {β γ : Type} {m : SessionM α β} {f : β → SessionM α γ} (hm : Grows all s (ending (m s)))
    (hf : ∀ v s', ClosedMemo all s' → Grows all s' (ending (f v s'))) :
    Grows all s (ending ((m >>= f) s)) := by
  rw [bind_apply]
  cases hms : m s with
  | error e s' =>
    rw [hms] at hm
    exact hm
  | ok v s' =>
    rw [hms] at hm
    exact hm.trans (hf v s' hm.closed)

theorem applyNoted_error {number : Nat} {kind : OperatorKind} {output : SizeInfo} {args : List (Value α)} {e : EvalError}
    (h : applyNoted number kind output args s = .error e s') : s' = s := by
  unfold applyNoted at h
  cases happly : Value.apply s.bindings.get? kind output args with
  | error e' =>
    rw [happly] at h
    exact (EStateM.Result.error.inj h).2.symm
  | ok v =>
    rw [happly] at h
    cases h

mutual

/-- **Evaluation leaves a closed memo**, also when it fails. -/
theorem value_grows (hall : ∀ a ∈ all, ∀ b ∈ all, a.number = b.number → a = b) :
    ∀ (o : Operator), (∀ x ∈ o.walk, x ∈ all) → ∀ s : Session α, ClosedMemo all s →
      Grows all s (ending (value o s))
  | ⟨number, kind, placement, output, correction, position, inputs⟩, ho, s, hs => by
    cases hrun : value ⟨number, kind, placement, output, correction, position, inputs⟩ s with
    | ok v s' =>
      obtain ⟨hclosed, hnoted⟩ := value_notes hall _ ho s hs v s' hrun
      exact ⟨hclosed, fun n hn => (hnoted n).2 (.inl hn)⟩
    | error e s' =>
      -- nothing is noted after the inputs
      have hinputs := values_grows hall inputs (fun x hx => ho x (by simp [Operator.walk, hx])) s hs
      rw [value_eq] at hrun
      cases hmemo : s.memo.lookup number with
      | some v =>
        rw [hmemo] at hrun
        cases hrun
      | none =>
        rw [hmemo, Option.elim_none, bind_apply] at hrun
        cases hvalues : values inputs s with
        | error e' s₁ =>
          rw [hvalues] at hrun hinputs
          obtain ⟨-, rfl⟩ := EStateM.Result.error.inj hrun
          exact hinputs
        | ok args s₁ =>
          rw [hvalues] at hrun hinputs
          obtain rfl := applyNoted_error hrun
          exact hinputs

theorem values_grows (hall : ∀ a ∈ all, ∀ b ∈ all, a.number = b.number → a = b) :
    ∀ (os : List Operator), (∀ x ∈ Operator.walkAll os, x ∈ all) → ∀ s : Session α, ClosedMemo all s →
      Grows all s (ending (values os s))
  | [], _, s, hs => Grows.refl hs
  | o :: rest, ho, s, hs => by
    have hvalue := value_grows hall o (fun x hx => ho x (by simp [Operator.walkAll, hx])) s hs
    rw [values]
    refine hvalue.bind fun v s' hs' => ?_
    have hvalues := values_grows hall rest (fun x hx => ho x (by simp [Operator.walkAll, hx])) s' hs'
    exact hvalues.bind fun vs s'' hs'' => Grows.refl hs''

end

theorem eval_grows (hall : ∀ a ∈ all, ∀ b ∈ all, a.number = b.number → a = b) (o : Operator)
    (ho : ∀ x ∈ o.walk, x ∈ all) (hs : ClosedMemo all s) : Grows all s (ending (eval o s)) := by
  refine (value_grows hall o ho s hs).bind fun v s' hs' => ?_
  cases v with
  | matrix d => exact Grows.refl hs'
  | cells cs => exact Grows.refl hs'

theorem evals_grows (hall : ∀ a ∈ all, ∀ b ∈ all, a.number = b.number → a = b) (os : List Operator) :
    (∀ x ∈ Operator.walkAll os, x ∈ all) → ∀ s : Session α, ClosedMemo all s →
      Grows all s (ending (os.mapM eval s)) := by
  induction os with
  | nil => exact fun _ s hs => Grows.refl hs
  | cons o rest ih =>
    intro ho s hs
    rw [List.mapM_cons]
    refine (eval_grows hall o (fun x hx => ho x (by simp [Operator.walkAll, hx])) hs).bind fun d s' hs' => ?_
    have hrest := ih (fun x hx => ho x (by simp [Operator.walkAll, hx])) s' hs'
    exact hrest.bind fun ds s'' hs'' => Grows.refl hs''

/-! ## Dates -/

theorem apply_congr {bound bound' : String → Option (Block α)} {kind : OperatorKind}
    (h : ∀ name, kind = .data name → bound name = bound' name) (output : SizeInfo) (args : List (Value α)) :
    Value.apply bound kind output args = Value.apply bound' kind output args := by
  cases kind with
  | data name => rw [Value.apply, Value.apply, h name rfl]
  | transform op => rfl
  | partialAggregate op direction => cases op <;> rfl
  | group => rfl
  | aggregate op => cases op <;> rfl

mutual

/-- dates that name the same blocks for all operators that read any are the same -/
theorem dated_congr {read read' : Nat → String → Option (Block α)} : ∀ (o : Operator),
    (∀ x ∈ o.walk, ∀ name, x.kind = .data name → read x.number name = read' x.number name) →
      dated read o = dated read' o
  | ⟨number, kind, placement, output, correction, position, inputs⟩, h => by
    have hself := h ⟨number, kind, placement, output, correction, position, inputs⟩ (by simp [Operator.walk])
    have hinputs := datedAll_congr inputs fun x hx => h x (by simp [Operator.walk, hx])
    rw [dated, dated, hinputs]
    exact congrArg (datedAll read' inputs >>= ·) (funext fun args => apply_congr hself output args)

theorem datedAll_congr {read read' : Nat → String → Option (Block α)} : ∀ (os : List Operator),
    (∀ x ∈ Operator.walkAll os, ∀ name, x.kind = .data name → read x.number name = read' x.number name) →
      datedAll read os = datedAll read' os
  | [], _ => rfl
  | o :: rest, h => by
    rw [datedAll, datedAll, dated_congr o fun x hx => h x (by simp [Operator.walkAll, hx]),
      datedAll_congr rest fun x hx => h x (by simp [Operator.walkAll, hx])]

end

theorem datedMatrix_congr {read read' : Nat → String → Option (Block α)} {o : Operator}
    (h : ∀ x ∈ o.walk, ∀ name, x.kind = .data name → read x.number name = read' x.number name) :
    datedMatrix read o = datedMatrix read' o := by
  rw [datedMatrix, datedMatrix, dated_congr o h]

/-! ## Calls -/

variable [CellText α] {calls : List (SessionCall α)}

/-- the session after a call, whether it succeeds or fails -/
def after (s : Session α) : SessionCall α → Session α
  | .bind name b => s.bind name b
  | .eval o => ending (eval o s)
  | .run p started finished => ending (run p started finished s)

/-- the dates after a call: what the memo holds keeps its date when a block is bound, and a run begins with nothing but
the present -/
def redated (s : Session α) (date : Nat → Bindings α) : SessionCall α → Nat → Bindings α
  | .bind name b => fun n => if n ∈ s.noted then date n else s.bindings.bind name b
  | .eval _ => date
  | .run _ _ _ => fun _ => s.bindings

/-- a new session after calls, with the dates of operators -/
def track (calls : List (SessionCall α)) : Session α × (Nat → Bindings α) :=
  calls.foldl (fun t c => (t.1.after c, t.1.redated t.2 c)) ({}, fun _ => {})

/-- a new session after calls, whichever of them fail -/
def afterAll (calls : List (SessionCall α)) : Session α := (track calls).1

/-- the bindings as of which an operator is read after calls: those in force when it was put into the memo if it is there,
else the present ones -/
def dates (calls : List (SessionCall α)) : Nat → Bindings α := (track calls).2

omit [Cell α] [CellText α] in
/-- the blocks that calls bind -/
def boundBy (calls : List (SessionCall α)) : Bindings α :=
  calls.foldl (fun bs c => match c with
    | .bind name b => bs.bind name b
    | _ => bs) {}

/-- bindings in force at the last run, or when an operator was evaluated since -/
def InForce (calls : List (SessionCall α)) (bs : Bindings α) : Prop :=
  ∃ before c later, calls = before ++ c :: later ∧ c.evaluates = true ∧ (∀ d ∈ later, d.isRun = false) ∧
    bs = boundBy before

/-- after calls the bindings are those that the calls left, and the memo holds what operators were at their dates -/
structure DatedAfter (all : List Operator) (calls : List (SessionCall α)) (date : Nat → Bindings α) (s : Session α) :
    Prop where
  bound : s.bindings = boundBy calls
  memo : DatedMemo all (fun n => (date n).get?) s
  closed : ClosedMemo all s
  present : ∀ n, n ∉ s.noted → date n = boundBy calls
  past : ∀ n, n ∈ s.noted → InForce calls (date n)

omit [CellText α] in
theorem datedAfter_nil : DatedAfter all ([] : List (SessionCall α)) (fun _ => {}) ({} : Session α) where
  bound := rfl
  memo := datedMemo_emptied {}
  closed := closedMemo_emptied {}
  present := fun _ _ => rfl
  past := fun _ hn => by cases hn

omit [Cell α] [CellText α] in
theorem inForce_snoc {c : SessionCall α} {bs : Bindings α} : InForce (calls ++ [c]) bs ↔
    (c.evaluates = true ∧ bs = boundBy calls) ∨ (c.isRun = false ∧ InForce calls bs) := by
  constructor
  · rintro ⟨before, d, later, hcalls, hd, hlater, rfl⟩
    rcases List.eq_nil_or_concat' later with rfl | ⟨between, e, rfl⟩
    · obtain ⟨rfl, hc⟩ := List.append_inj' hcalls rfl
      obtain rfl := List.singleton_inj.1 hc
      exact .inl ⟨hd, rfl⟩
    · rw [← List.cons_append, ← List.append_assoc] at hcalls
      obtain ⟨rfl, hc⟩ := List.append_inj' hcalls rfl
      obtain rfl := List.singleton_inj.1 hc
      exact .inr ⟨hlater c (by simp), before, d, between, rfl, hd, fun x hx => hlater x (by simp [hx]), rfl⟩
  · rintro (⟨hc, rfl⟩ | ⟨hc, before, d, later, rfl, hd, hlater, rfl⟩)
    · exact ⟨calls, c, [], rfl, hc, fun _ hx => (by cases hx), rfl⟩
    · refine ⟨before, d, later ++ [c], by simp, hd, fun x hx => ?_, rfl⟩
      rcases List.mem_append.1 hx with hx | hx
      · exact hlater x hx
      · rw [List.mem_singleton.1 hx]
        exact hc

omit [Cell α] [CellText α] in
theorem boundBy_snoc (calls : List (SessionCall α)) (c : SessionCall α) : boundBy (calls ++ [c]) =
    match c with
    | .bind name b => (boundBy calls).bind name b
    | _ => boundBy calls := by
  rw [boundBy, List.foldl_append]
  rfl

namespace DatedAfter

variable {date : Nat → Bindings α}

/-- binding a block leaves all that the memo holds at its date -/
theorem bind (h : DatedAfter all calls date s) (name : String) (b : Block α) :
    DatedAfter all (calls ++ [.bind name b]) (s.redated date (.bind name b)) (s.after (.bind name b)) := by
  have hbound : s.bindings.bind name b = boundBy (calls ++ [.bind name b]) := by rw [boundBy_snoc, h.bound]
  have hkept : ∀ n ∈ s.noted, s.redated date (.bind name b) n = date n := fun n hn => if_pos hn
  have hclosed : ClosedMemo all (s.bind name b) := ⟨h.closed.nodup, h.closed.below⟩
  change DatedAfter _ _ _ (s.bind name b)
  refine ⟨hbound, ⟨fun n v hv => ?_, fun n hn => ?_⟩, hclosed, fun n hn => ?_, fun n hn => ?_⟩
  · replace hv : s.memo.lookup n = some v := hv
    obtain ⟨o, ho, hnumber, hdated⟩ := h.memo.sound n v hv
    refine ⟨o, ho, hnumber, (dated_congr o fun x hx name' _ => ?_).trans hdated⟩
    -- what the memo holds depends on what it holds
    have hnoted : n ∈ s.noted := by
      by_contra hnot
      rw [lookup_memo_none.2 hnot] at hv
      cases hv
    rw [hkept x.number (h.closed.below o ho (hnumber ▸ hnoted) x hx)]
  · exact congrArg Bindings.get? (if_neg (lookup_memo_none.1 hn))
  · exact (if_neg hn).trans hbound
  · rw [hkept n hn]
    exact inForce_snoc.2 (.inr ⟨rfl, h.past n hn⟩)

/-- what is noted by evaluation is noted at the present -/
theorem eval (hall : ∀ a ∈ all, ∀ b ∈ all, a.number = b.number → a = b) (h : DatedAfter all calls date s)
    {o : Operator} (ho : ∀ x ∈ o.walk, x ∈ all) :
    DatedAfter all (calls ++ [.eval o]) (s.redated date (.eval o)) (s.after (.eval o)) := by
  obtain ⟨s', heval, hbindings, hmemo⟩ := eval_dated hall o ho s h.memo
  have hgrows := eval_grows hall o ho h.closed
  have hafter : s.after (.eval o) = s' := by rw [after, heval, ending_ended]
  have hbound : boundBy (calls ++ [.eval o]) = boundBy calls := boundBy_snoc calls _
  rw [heval, ending_ended] at hgrows
  rw [hafter]
  refine ⟨?_, hmemo, hgrows.closed, fun n hn => ?_, fun n hn => ?_⟩
  · rw [hbindings, hbound, h.bound]
  · rw [hbound]
    exact h.present n fun hold => hn (hgrows.kept n hold)
  · by_cases hold : n ∈ s.noted
    · exact inForce_snoc.2 (.inr ⟨rfl, h.past n hold⟩)
    · change InForce _ (date n)
      rw [h.present n hold]
      exact inForce_snoc.2 (.inl ⟨rfl, rfl⟩)

/-- after a run the memo holds nothing but the present -/
theorem run (hall : ∀ a ∈ all, ∀ b ∈ all, a.number = b.number → a = b) (h : DatedAfter all calls date s)
    {p : Program} (hp : ∀ x ∈ Operator.walkAll p.roots, x ∈ all) (started finished : Nat) :
    DatedAfter all (calls ++ [.run p started finished]) (s.redated date (.run p started finished))
      (s.after (.run p started finished)) := by
  obtain ⟨s', hevals, hbindings, hmemo⟩ := evals_dated hall p.roots hp _ (datedMemo_emptied s)
  have hgrows := evals_grows hall p.roots hp _ (closedMemo_emptied s)
  have hroots : evalRoots p s = ended (p.roots.mapM (datedMatrix fun _ => s.bindings.get?)) s' := hevals
  have hafter : s.after (.run p started finished) = s' := by
    rw [after, run_eq, hroots]
    cases p.roots.mapM (datedMatrix fun _ => s.bindings.get?) <;> rfl
  have hbound : boundBy (calls ++ [.run p started finished]) = boundBy calls := boundBy_snoc calls _
  rw [hevals, ending_ended] at hgrows
  rw [hafter]
  refine ⟨?_, hmemo, hgrows.closed, fun n _ => ?_, fun n _ => ?_⟩
  · rw [hbindings, hbound]
    exact h.bound
  · rw [hbound]
    exact h.bound
  · change InForce _ s.bindings
    rw [h.bound]
    exact inForce_snoc.2 (.inl ⟨rfl, rfl⟩)

/-- **A call keeps what the memo holds at its date.** -/
theorem after (hall : ∀ a ∈ all, ∀ b ∈ all, a.number = b.number → a = b) (h : DatedAfter all calls date s)
    {c : SessionCall α} (hc : ∀ x ∈ Operator.walkAll c.operators, x ∈ all) :
    DatedAfter all (calls ++ [c]) (s.redated date c) (s.after c) := by
  cases c with
  | bind name b => exact h.bind name b
  | eval o =>
    refine h.eval hall fun x hx => hc x ?_
    simpa [SessionCall.operators, Operator.walkAll] using hx
  | run p started finished => exact h.run hall hc started finished

end DatedAfter

theorem datedAfter_track (hall : ∀ a ∈ all, ∀ b ∈ all, a.number = b.number → a = b) :
    ∀ calls : List (SessionCall α), (∀ c ∈ calls, ∀ x ∈ Operator.walkAll c.operators, x ∈ all) →
      DatedAfter all calls (dates calls) (afterAll calls) := by
  intro calls
  induction calls using List.reverseRecOn with
  | nil => exact fun _ => datedAfter_nil
  | append_singleton calls c ih =>
    intro hcalls
    have hbefore := ih fun d hd => hcalls d (List.mem_append_left _ hd)
    have htrack : track (calls ++ [c]) = ((afterAll calls).after c, (afterAll calls).redated (dates calls) c) := by
      rw [track, List.foldl_append]
      rfl
    rw [dates, afterAll, htrack]
    exact hbefore.after hall (hcalls c (by simp))

/-- **Evaluation after any calls is recursion as of the dates of operators.** In a new session in which blocks were bound,
operators evaluated and plans run, in any order and with or without success, an operator evaluates to what recursion
gives if each operator that the memo holds is read under the bindings in force when it was put there, all others under
the present ones. The former were in force at the last run or at an evaluation since. So evaluation sees the present
bindings if the blocks that the operators below read were, whenever operators were evaluated since the last run, the
present ones. -/
theorem eval_as_of (calls : List (SessionCall α)) (o : Operator)
    (h : Operator.NumbersTell (o :: calls.flatMap SessionCall.operators)) :
    outcome (eval o (afterAll calls)) = datedMatrix (fun n => (dates calls n).get?) o ∧
      (∀ n, n ∉ (afterAll calls).noted → dates calls n = boundBy calls) ∧
      (∀ n, n ∈ (afterAll calls).noted → InForce calls (dates calls n)) ∧
      ((∀ bs, InForce calls bs → ∀ x ∈ o.walk, ∀ name, x.kind = .data name →
          bs.get? name = (boundBy calls).get? name) →
        outcome (eval o (afterAll calls)) = plainMatrix (boundBy calls).get? o) := by
  have hcalls : ∀ c ∈ calls, ∀ x ∈ Operator.walkAll c.operators,
      x ∈ Operator.walkAll (o :: calls.flatMap SessionCall.operators) := by
    intro c hc x hx
    obtain ⟨a, ha, hxa⟩ := Operator.mem_walkAll_iff_exists.1 hx
    exact Operator.mem_walkAll_iff_exists.2 ⟨a, List.mem_cons_of_mem _ (List.mem_flatMap.2 ⟨c, hc, ha⟩), hxa⟩
  have hdated := datedAfter_track h calls hcalls
  have ho : ∀ x ∈ o.walk, x ∈ Operator.walkAll (o :: calls.flatMap SessionCall.operators) :=
    fun x hx => Operator.mem_walkAll_iff_exists.2 ⟨o, List.mem_cons_self, hx⟩
  have heval : outcome (eval o (afterAll calls)) = datedMatrix (fun n => (dates calls n).get?) o := by
    obtain ⟨s', heval, -, -⟩ := eval_dated h o ho _ hdated.memo
    rw [heval, outcome_ended]
  refine ⟨heval, hdated.present, hdated.past, fun hbound => ?_⟩
  rw [heval, ← datedMatrix_const]
  refine datedMatrix_congr fun x hx name hname => ?_
  by_cases hnoted : x.number ∈ (afterAll calls).noted
  · exact hbound _ (hdated.past _ hnoted) x hx name hname
  · exact congrFun (congrArg Bindings.get? (hdated.present _ hnoted)) name

/-- an operator that reads the block named "A", whatever its size -/
def readsA : Operator := .data 0 "A" ⟨none, none, 1000, 1000, none⟩ {}

def single (x : Int) : Block Int := .dense ⟨1, 1, #[x], 1⟩

/-- the block named "A" is read, then another is bound in its place -/
def boundAnew : List (SessionCall Int) := [.bind "A" (single 5), .eval readsA, .bind "A" (single 7)]

def turnsA : Operator := .transform 1 readsA .transpose .local ⟨none, none, 1000, 1000, none⟩ {}

theorem walk_turnsA {x o : Operator} (ho : o = turnsA ∨ o = readsA) (hx : x ∈ o.walk) : x = turnsA ∨ x = readsA := by
  rcases ho with rfl | rfl
  · simpa [turnsA, readsA, Operator.transform, Operator.data, Operator.walk, Operator.walkAll, or_comm] using hx
  · simpa [readsA, Operator.data, Operator.walk, Operator.walkAll] using Or.inr hx

theorem numbersTell_turnsA {os : List Operator} (hos : ∀ o ∈ os, o = turnsA ∨ o = readsA) :
    Operator.NumbersTell os := by
  intro a ha b hb hab
  obtain ⟨o, ho, ha⟩ := Operator.mem_walkAll_iff_exists.1 ha
  obtain ⟨o', ho', hb⟩ := Operator.mem_walkAll_iff_exists.1 hb
  rcases walk_turnsA (hos o ho) ha with rfl | rfl <;> rcases walk_turnsA (hos o' ho') hb with rfl | rfl <;>
    first | rfl | cases hab

/-- a block that was read before another was bound is the one of then in all that reads it, until a plan is run -/
theorem read_as_of_then :
    outcome (eval turnsA (afterAll boundAnew)) = .ok ⟨1, 1, #[5], 1⟩ ∧
      outcome (eval turnsA (afterAll (boundAnew ++ [.run ⟨[readsA]⟩ 0 0]))) = .ok ⟨1, 1, #[7], 1⟩ := by
  constructor
  · have htell : Operator.NumbersTell (turnsA :: boundAnew.flatMap SessionCall.operators) :=
      numbersTell_turnsA (by simp [boundAnew, SessionCall.operators])
    exact (eval_as_of boundAnew turnsA htell).1.trans rfl
  · have htell : Operator.NumbersTell
        (turnsA :: (boundAnew ++ [SessionCall.run ⟨[readsA]⟩ 0 0]).flatMap SessionCall.operators) :=
      numbersTell_turnsA (by simp [boundAnew, SessionCall.operators])
    refine ((eval_as_of _ turnsA htell).2.2.2 fun bs hbs _ _ name _ => ?_).trans rfl
    -- the run forgets the evaluation before it
    rcases inForce_snoc.1 hbs with ⟨-, rfl⟩ | ⟨hrun, -⟩
    · rfl
    · cases hrun

/-- the block that is bound is not the one that is seen -/
theorem rebound_block_is_missed :
    Operator.NumbersTell (readsA :: boundAnew.flatMap SessionCall.operators) ∧
      outcome (eval readsA (afterAll boundAnew)) = .ok ⟨1, 1, #[5], 1⟩ ∧
      plainMatrix (boundBy boundAnew).get? readsA = .ok ⟨1, 1, #[7], 1⟩ :=
  ⟨numbersTell_turnsA (by simp [boundAnew, SessionCall.operators]), rfl, rfl⟩

end Session

end MatrixEngine
