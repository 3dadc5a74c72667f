/-
What a run leaves in the memo: one entry for each operator of the plan, whatever is shared.

An operator is noted after all operators below it, so a memo that has an operator has these as well (`ClosedMemo`).
Evaluation adds the operators it meets, each once (`value_notes`), since no operator is met below itself. With plain
evaluation for the results, this is the whole of a run:
- `run_memoised`: from any session, a run returns what plain evaluation of the roots does or fails as it does, and
  reports as many operators as there are in the plan (`Program.size`).
-/
import MatrixEngine.Proofs.Number.Sums
import MatrixEngine.Proofs.Physical.Recursion
import MatrixEngine.Proofs.Sequence

namespace MatrixEngine

/-! ## The operators of a plan -/

namespace Operator

theorem distinct_foldl (ns : List Nat) {seen : List Nat} (h : seen.Nodup) :
    (ns.foldl (fun seen n => if seen.contains n then seen else seen ++ [n]) seen).Nodup ∧
      ∀ k, k ∈ ns.foldl (fun seen n => if seen.contains n then seen else seen ++ [n]) seen ↔ k ∈ seen ∨ k ∈ ns := by
  induction ns generalizing seen with
  | nil => exact ⟨h, by simp⟩
  | cons n ns ih =>
    rw [List.foldl_cons]
    by_cases hn : n ∈ seen
    · rw [if_pos (List.contains_iff_mem.2 hn)]
      obtain ⟨hnodup, hmem⟩ := ih h
      refine ⟨hnodup, fun k => (hmem k).trans ?_⟩
      rw [List.mem_cons]
      constructor
      · rintro (hk | hk)
        · exact .inl hk
        · exact .inr (.inr hk)
      · rintro (hk | rfl | hk)
        · exact .inl hk
        · exact .inl hn
        · exact .inr hk
    · rw [if_neg (fun hc => hn (List.contains_iff_mem.1 hc))]
      have hseen : (seen ++ [n]).Nodup := (List.perm_append_singleton n seen).nodup_iff.2 (List.nodup_cons.2 ⟨hn, h⟩)
      obtain ⟨hnodup, hmem⟩ := ih hseen
      refine ⟨hnodup, fun k => (hmem k).trans ?_⟩
      rw [List.mem_append, List.mem_singleton, List.mem_cons, or_assoc]

theorem nodup_distinct (ns : List Nat) : (distinct ns).Nodup := (distinct_foldl ns List.nodup_nil).1

theorem mem_distinct {k : Nat} {ns : List Nat} : k ∈ distinct ns ↔ k ∈ ns :=
  ((distinct_foldl ns List.nodup_nil).2 k).trans (by simp)

/-- as many as there are distinct ones: a list of the same numbers, each once -/
theorem length_distinct {ks ns : List Nat} (h : ks.Nodup) (hmem : ∀ k, k ∈ ks ↔ k ∈ ns) :
    (distinct ns).length = ks.length :=
  ((List.perm_ext_iff_of_nodup (nodup_distinct ns) h).2 fun k => mem_distinct.trans (hmem k).symm).length_eq

mutual

theorem sizeOf_walk : ∀ (o : Operator), ∀ x ∈ o.walk, sizeOf x ≤ sizeOf o
  | ⟨number, kind, placement, output, correction, position, inputs⟩, x, hx => by
    rw [walk, List.mem_append, List.mem_singleton] at hx
    rcases hx with hx | rfl
    · have hlt := sizeOf_walkAll inputs x hx
      rw [mk.sizeOf_spec]
      omega
    · exact le_rfl

theorem sizeOf_walkAll : ∀ (os : List Operator), ∀ x ∈ walkAll os, sizeOf x < sizeOf os
  | [], x, hx => by simp [walkAll] at hx
  | o :: rest, x, hx => by
    rw [walkAll, List.mem_append] at hx
    rw [List.cons.sizeOf_spec]
    rcases hx with hx | hx
    · have hle := sizeOf_walk o x hx
      omega
    · have hlt := sizeOf_walkAll rest x hx
      omega

end

theorem not_mem_inputs (o : Operator) : o ∉ walkAll o.inputs := by
  intro ho
  have hlt := sizeOf_walkAll o.inputs o ho
  have hle : sizeOf o.inputs < sizeOf o := by
    cases o
    rw [mk.sizeOf_spec]
    simp only
    omega
  omega

end Operator

/-- number of operators of a plan, shared ones counted once -/
def Program.size (p : Program) : Nat := (Operator.distinct ((Operator.walkAll p.roots).map (·.number))).length

namespace Session

variable {α : Type} [Cell α]

/-! ## The memo while operators are evaluated -/

/-- the numbers of the operators in the memo -/
def noted (s : Session α) : List Nat := s.memo.map (·.1)

/-- no operator is noted twice, and with an operator those below it are noted -/
structure ClosedMemo (all : List Operator) (s : Session α) : Prop where
  nodup : s.noted.Nodup
  below : ∀ o ∈ all, o.number ∈ s.noted → ∀ x ∈ o.walk, x.number ∈ s.noted

/-- a step that succeeds adds the given numbers to the memo, keeping it closed -/
def Notes {β : Type} (all : List Operator) (s : Session α) (ns : List Nat) (m : SessionM α β) : Prop :=
  ∀ v s', m s = .ok v s' → ClosedMemo all s' ∧ ∀ n, n ∈ s'.noted ↔ n ∈ s.noted ∨ n ∈ ns

variable {all : List Operator} {s : Session α}

omit [Cell α] in
theorem closedMemo_emptied (s : Session α) : ClosedMemo all ({ s with memo := [] } : Session α) :=
  ⟨List.nodup_nil, fun _ _ hnumber => by cases hnumber⟩

omit [Cell α] in
theorem lookup_memo_none {n : Nat} : s.memo.lookup n = none ↔ n ∉ s.noted := Sequence.lookup_eq_none_iff

omit [Cell α] in
theorem Notes.bind {β γ : Type} {ns ns' : List Nat} {m : SessionM α β} {f : β → SessionM α γ} (hm : Notes all s ns m)
    (hf : ∀ v s', ClosedMemo all s' → (∀ n, n ∈ s'.noted ↔ n ∈ s.noted ∨ n ∈ ns) → Notes all s' ns' (f v)) :
    Notes all s (ns ++ ns') (m >>= f) := by
  intro w s'' hrun
  rw [bind_apply] at hrun
  cases hms : m s with
  | error e s' =>
    rw [hms] at hrun
    cases hrun
  | ok v s' =>
    rw [hms] at hrun
    obtain ⟨hclosed, hnoted⟩ := hm v s' hms
    obtain ⟨hclosed', hnoted'⟩ := hf v s' hclosed hnoted w s'' hrun
    refine ⟨hclosed', fun n => ?_⟩
    rw [hnoted', hnoted, List.mem_append, or_assoc]

omit [Cell α] in
theorem notes_pure {β : Type} (h : ClosedMemo all s) (b : β) : Notes all s [] (pure b) := by
  intro v s' hrun
  obtain ⟨rfl, rfl⟩ := EStateM.Result.ok.inj hrun
  exact ⟨h, by simp⟩

theorem applyNoted_notes (hall : ∀ a ∈ all, ∀ b ∈ all, a.number = b.number → a = b) (h : ClosedMemo all s)
    {o : Operator} (ho : o ∈ all) (hnew : o.number ∉ s.noted)
    (hbelow : ∀ x ∈ Operator.walkAll o.inputs, x.number ∈ s.noted) (kind : OperatorKind) (output : SizeInfo)
    (args : List (Value α)) : Notes all s [o.number] (applyNoted o.number kind output args) := by
  intro v s' hrun
  unfold applyNoted at hrun
  cases happly : Value.apply s.bindings.get? kind output args with
  | error e =>
    rw [happly] at hrun
    cases hrun
  | ok w =>
    rw [happly] at hrun
    obtain ⟨rfl, rfl⟩ := EStateM.Result.ok.inj hrun
    have hnoted : ({ s with memo := (o.number, w) :: s.memo } : Session α).noted = o.number :: s.noted := rfl
    refine ⟨⟨?_, fun a ha hnumber x hx => ?_⟩, fun n => ?_⟩
    · rw [hnoted]
      exact List.nodup_cons.2 ⟨hnew, h.nodup⟩
    · rw [hnoted] at hnumber ⊢
      rcases List.mem_cons.1 hnumber with hsame | hold
      · obtain rfl := hall a ha o ho hsame
        have hwalk : a.walk = Operator.walkAll a.inputs ++ [a] := by
          cases a
          rw [Operator.walk]
        rw [hwalk, List.mem_append, List.mem_singleton] at hx
        rcases hx with hx | rfl
        · exact List.mem_cons_of_mem _ (hbelow x hx)
        · exact List.mem_cons_self
      · exact List.mem_cons_of_mem _ (h.below a ha hold x hx)
    · rw [hnoted, List.mem_cons, List.mem_singleton, or_comm]

mutual

/-- **Evaluation adds the operators it meets** to the memo, each once. -/
theorem value_notes (hall : ∀ a ∈ all, ∀ b ∈ all, a.number = b.number → a = b) :
    ∀ (o : Operator), (∀ x ∈ o.walk, x ∈ all) → ∀ s : Session α, ClosedMemo all s →
      Notes all s (o.walk.map (·.number)) (value o)
  | ⟨number, kind, placement, output, correction, position, inputs⟩, ho, s, hs => by
    set o : Operator := ⟨number, kind, placement, output, correction, position, inputs⟩ with hdef
    have hwalk : o.walk = Operator.walkAll inputs ++ [o] := by rw [hdef, Operator.walk]
    have hself : o ∈ all := ho o (by simp [hwalk])
    have hinputs : ∀ x ∈ Operator.walkAll inputs, x ∈ all := fun x hx => ho x (by simp [hwalk, hx])
    unfold Notes
    rw [value_eq]
    cases hmemo : s.memo.lookup o.number with
    | some v =>
      -- all operators below are noted already
      have hnumber : o.number ∈ s.noted := by
        by_contra hnot
        rw [lookup_memo_none.2 hnot] at hmemo
        cases hmemo
      intro w s' hpure
      obtain ⟨rfl, rfl⟩ := EStateM.Result.ok.inj hpure
      refine ⟨hs, fun n => ⟨.inl, ?_⟩⟩
      rintro (hn | hn)
      · exact hn
      · obtain ⟨x, hx, rfl⟩ := List.mem_map.1 hn
        exact hs.below o hself hnumber x hx
    | none =>
      have hnumber : o.number ∉ s.noted := lookup_memo_none.1 hmemo
      rw [hwalk, List.map_append]
      refine (values_notes hall inputs hinputs s hs).bind fun args s' hs' hnoted => ?_
      refine applyNoted_notes hall hs' hself (fun hn => ?_) (fun x hx => ?_) kind output args
      · -- the number of the operator is that of no other, and the operator is not below itself
        rcases (hnoted _).1 hn with hold | hbelow
        · exact hnumber hold
        · obtain ⟨x, hx, hsame⟩ := List.mem_map.1 hbelow
          obtain rfl := hall x (hinputs x hx) o hself hsame
          exact o.not_mem_inputs hx
      · exact (hnoted _).2 (.inr (List.mem_map_of_mem hx))

theorem values_notes (hall : ∀ a ∈ all, ∀ b ∈ all, a.number = b.number → a = b) :
    ∀ (os : List Operator), (∀ x ∈ Operator.walkAll os, x ∈ all) → ∀ s : Session α, ClosedMemo all s →
      Notes all s ((Operator.walkAll os).map (·.number)) (values os)
  | [], _, s, hs => notes_pure hs []
  | o :: rest, ho, s, hs => by
    rw [Operator.walkAll, List.map_append, values]
    refine (value_notes hall o (fun x hx => ho x (by simp [Operator.walkAll, hx])) s hs).bind fun v s' hs' _ => ?_
    have hrest := values_notes hall rest (fun x hx => ho x (by simp [Operator.walkAll, hx])) s' hs'
    rw [← List.append_nil ((Operator.walkAll rest).map _)]
    exact hrest.bind fun vs _ hs'' _ => notes_pure hs'' (v :: vs)

end

/-! ## Runs -/

theorem eval_notes (hall : ∀ a ∈ all, ∀ b ∈ all, a.number = b.number → a = b) (o : Operator)
    (ho : ∀ x ∈ o.walk, x ∈ all) (hs : ClosedMemo all s) : Notes all s (o.walk.map (·.number)) (eval o) := by
  rw [← List.append_nil (o.walk.map _)]
  refine (value_notes hall o ho s hs).bind fun v s' hs' _ => ?_
  cases v with
  | matrix d => exact notes_pure hs' d
  | cells cs =>
    intro d s'' hrun
    cases hrun

theorem evals_notes (hall : ∀ a ∈ all, ∀ b ∈ all, a.number = b.number → a = b) (os : List Operator) :
    (∀ x ∈ Operator.walkAll os, x ∈ all) → ∀ s : Session α, ClosedMemo all s →
      Notes all s ((Operator.walkAll os).map (·.number)) (os.mapM eval) := by
  induction os with
  | nil => exact fun _ s hs => notes_pure hs []
  | cons o rest ih =>
    intro ho s hs
    rw [Operator.walkAll, List.map_append, List.mapM_cons]
    refine (eval_notes hall o (fun x hx => ho x (by simp [Operator.walkAll, hx])) hs).bind fun d s' hs' _ => ?_
    have hrest := ih (fun x hx => ho x (by simp [Operator.walkAll, hx])) s' hs'
    rw [← List.append_nil ((Operator.walkAll rest).map _)]
    exact hrest.bind fun ds _ hs'' _ => notes_pure hs'' (d :: ds)

/-- the roots of a plan leave an entry for each of its operators, whatever was in the memo before -/
theorem evalRoots_notes {p : Program} (h : Operator.NumbersTell p.roots) {s s' : Session α} {ds : List (Dense α)}
    (hrun : evalRoots p s = .ok ds s') : s'.memo.length = p.size := by
  obtain ⟨hclosed', hnoted⟩ := evals_notes h p.roots (fun _ hx => hx) _ (closedMemo_emptied s) ds s' hrun
  have hnumbers : ∀ n, n ∈ s'.noted ↔ n ∈ (Operator.walkAll p.roots).map (·.number) := by
    intro n
    rw [hnoted]
    exact or_iff_right (List.not_mem_nil)
  calc s'.memo.length = s'.noted.length := (List.length_map _).symm
    _ = p.size := (Operator.length_distinct hclosed'.nodup hnumbers).symm

/-- **A run is plain recursion with a count.** From any session, whatever was evaluated in it before and failed or not,
a run of a plan whose operators are told apart by their numbers returns for each root, in order, its value by plain
recursion under the session's bindings, or fails as the first root that has none. It leaves the bindings as they are,
and if it succeeds it reports how many operators the plan has, each counted once. -/
theorem run_memoised [CellText α] {p : Program} (h : Operator.NumbersTell p.roots) (started finished : Nat)
    (s : Session α) :
    match p.roots.mapM (plainMatrix s.bindings.get?) with
    | .ok ds => ∃ out s', run p started finished s = .ok out s' ∧ s'.bindings = s.bindings ∧ out.results = ds ∧
        out.manifest.operators = p.size
    | .error e => ∃ s', run p started finished s = .error e s' ∧ s'.bindings = s.bindings := by
  obtain ⟨s', hroots, hbindings⟩ := evalRoots_plain h s
  rw [run_eq, hroots]
  cases hplain : p.roots.mapM (plainMatrix s.bindings.get?) with
  | error e => exact ⟨s', rfl, hbindings⟩
  | ok ds =>
    rw [hplain] at hroots
    exact ⟨_, s', rfl, hbindings, rfl, evalRoots_notes h hroots⟩

/-- a block, the block turned around and turned back again; the second root is below the third -/
def turnedTwice : Program :=
  let size : SizeInfo := ⟨none, none, 1000, 1000, none⟩
  let a := Operator.data 0 "A" size {}
  let t := Operator.transform 1 a .transpose .local size {}
  ⟨[t, .transform 2 t .transpose .local size {}]⟩

/-- a session that has met an operator of the same number before -/
def usedSession : Session Int :=
  { bindings := ⟨[("A", .dense ⟨1, 2, #[5, 7], 2⟩)]⟩, memo := [(1, .cells [])] }

/-- both roots are evaluated from the bound block, although the session holds another value for the number of one, and
three operators are reported, although the first root is met twice -/
theorem turned_twice_counts_three : ∃ out s', run turnedTwice 0 0 usedSession = .ok out s' ∧
    out.results = [⟨2, 1, #[5, 7], 2⟩, ⟨1, 2, #[5, 7], 2⟩] ∧ out.manifest.operators = 3 := by
  have htell : Operator.NumbersTell turnedTwice.roots := by
    intro a ha b hb hab
    simp only [turnedTwice, Operator.walkAll, Operator.transform, Operator.data, Operator.walk, List.nil_append,
      List.append_nil, List.cons_append, List.mem_cons, List.not_mem_nil, or_false] at ha hb
    rcases ha with rfl | rfl | rfl | rfl | rfl <;> rcases hb with rfl | rfl | rfl | rfl | rfl <;>
      first | rfl | cases hab
  have hplain : turnedTwice.roots.mapM (plainMatrix usedSession.bindings.get?) =
      .ok [⟨2, 1, #[5, 7], 2⟩, ⟨1, 2, #[5, 7], 2⟩] := by
    rfl
  have hmain := run_memoised htell 0 0 usedSession
  rw [hplain] at hmain
  obtain ⟨out, s', hrun, -, hresults, hcount⟩ := hmain
  exact ⟨out, s', hrun, hresults, hcount⟩

end Session

end MatrixEngine
