/-
In which order blocks are bound does not show.

A new session is told of blocks one after the other, and of a name that is bound again only the last block counts
(`lastBlock`). What it holds in the end are these blocks, each put in its place among names in order.
- `Session.lookup_bindAll`: a name has its last block.
- `Session.bindAll_eq_iff`: hence two sessions that were told of blocks are the same exactly if each name has the same
  last block. So a table that hands out its entries in any order of its own is as good (`Session.bindAll_handedOut`).
- `Session.run_bindAll`: runs of a plan in such sessions end alike and are reported as the same, whenever they take place.
-/
import Mathlib.Data.String.Basic
import MatrixEngine.Proofs.Physical.Manifests

namespace MatrixEngine

namespace Session

variable {α : Type} {binds binds' : List (String × Block α)}

/-- the block that was bound to a name last -/
def lastBlock (binds : List (String × Block α)) (name : String) : Option (Block α) := binds.reverse.lookup name

/-- a new session that is told of blocks, one after the other -/
def bindAll (binds : List (String × Block α)) : Session α := binds.foldl (fun s e => s.bind e.1 e.2) {}

theorem bindAll_eq (binds : List (String × Block α)) : bindAll binds = ⟨⟨Json.inserted binds⟩, []⟩ :=
  List.foldl_hom (fun entries => (⟨⟨entries⟩, []⟩ : Session α)) fun _ _ => rfl

theorem lookup_bindAll (binds : List (String × Block α)) (name : String) :
    (bindAll binds).bindings.get? name = lastBlock binds name := by
  rw [bindAll_eq]
  exact Json.lookup_inserted binds name

/-- **Sessions are told by the last block of each name.** -/
theorem bindAll_eq_iff : bindAll binds = bindAll binds' ↔ ∀ name, lastBlock binds name = lastBlock binds' name := by
  refine ⟨fun h name => by rw [← lookup_bindAll, ← lookup_bindAll, h], fun h => ?_⟩
  have hinserted : Json.inserted binds = Json.inserted binds' := by
    refine (Json.sorted_inserted binds).ext (Json.sorted_inserted binds') fun name => ?_
    rw [Json.lookup_inserted, Json.lookup_inserted]
    exact h name
  rw [bindAll_eq, bindAll_eq, hinserted]

/-- a table that holds the same blocks and hands them out in any order comes to the same bindings -/
theorem bindAll_handedOut {entries : List (String × Block α)} (h : entries.Perm (bindAll binds).bindings.entries) :
    bindAll entries = bindAll binds := by
  have hdistinct := (Json.sorted_inserted binds).distinct
  rw [bindAll_eq] at h
  have hdistinct' : entries.reverse.Pairwise fun x y => x.1 ≠ y.1 :=
    ((List.reverse_perm entries).trans h).symm.pairwise hdistinct fun hxy => hxy.symm
  refine bindAll_eq_iff.2 fun name => Option.ext fun b => ?_
  calc lastBlock entries name = some b ↔ (name, b) ∈ entries.reverse := (Json.mem_iff_lookup hdistinct' (name, b)).symm
    _ ↔ (name, b) ∈ Json.inserted binds := by rw [List.mem_reverse, h.mem_iff]
    _ ↔ lastBlock binds name = some b := by rw [Json.mem_iff_lookup hdistinct, Json.lookup_inserted, lastBlock]

/-! ## Runs -/

variable [Cell α] [DecidableEq α] [CellText α]

omit [DecidableEq α] in
/-- **In which order blocks are bound does not show.** If two sequences of bindings leave the same last block for each
name, in any order and however often names were bound before, then a plan runs alike in two new sessions that were told
of them, at any times: both runs fail with the same error, or both succeed with the same results, the same digests of plan,
inputs and outputs and the same number of operators, so that they are reported as the same. -/
theorem run_bindAll (hlast : ∀ name, lastBlock binds name = lastBlock binds' name) (p : Program)
    (started finished started' finished' : Nat) :
    (∃ e s s', run p started finished (bindAll binds) = .error e s ∧
      run p started' finished' (bindAll binds') = .error e s') ∨
    ∃ out s out' s', run p started finished (bindAll binds) = .ok out s ∧
      run p started' finished' (bindAll binds') = .ok out' s' ∧
      out.results = out'.results ∧ out.manifest.plan = out'.manifest.plan ∧
      out.manifest.inputs = out'.manifest.inputs ∧ out.manifest.outputs = out'.manifest.outputs ∧
      out.manifest.operators = out'.manifest.operators ∧ out.manifest.sameResults out'.manifest = true := by
  rw [bindAll_eq_iff.2 hlast, run_eq, run_eq]
  cases evalRoots p (bindAll binds') with
  | error e s => exact .inl ⟨e, s, s, rfl, rfl⟩
  | ok results s =>
    exact .inr ⟨_, s, _, s, rfl, rfl, rfl, rfl, rfl, rfl, rfl, (sameResults_iff_digests _ _).2 ⟨rfl, rfl, rfl⟩⟩

def cellBlock (bits : UInt64) : Block Float := .dense ⟨1, 1, #[Float.ofBits bits], 1⟩

/-- 1.0 and later 2.0 as `A` -/
def boundTwice : List (String × Block Float) :=
  [("A", cellBlock 0x3FF0000000000000), ("B", cellBlock 0), ("A", cellBlock 0x4000000000000000)]

/-- 2.0 as `A` from the beginning -/
def boundOnce : List (String × Block Float) := [("A", cellBlock 0x4000000000000000), ("B", cellBlock 0)]

/-- a plan that delivers `A` delivers 2.0 in either case, and the runs are reported as the same -/
theorem rebound_runs_alike : (∀ name, lastBlock boundTwice name = lastBlock boundOnce name) ∧
    ∃ out s out' s', run (delivery 0) 0 1 (bindAll boundTwice) = .ok out s ∧
      run (delivery 0) 5 9 (bindAll boundOnce) = .ok out' s' ∧
      out.results = [⟨1, 1, #[Float.ofBits 0x4000000000000000], 1⟩] ∧ out'.results = out.results ∧
      out.manifest.sameResults out'.manifest = true := by
  have hlast : ∀ name, lastBlock boundTwice name = lastBlock boundOnce name := by
    intro name
    simp only [lastBlock, boundTwice, boundOnce, List.reverse_cons, List.reverse_nil, List.nil_append,
      List.cons_append, Json.lookup_cons_if, List.lookup_nil]
    by_cases hA : name = "A"
    · subst hA
      rfl
    · simp only [if_neg hA]
  obtain ⟨out, s, hrun, hresults⟩ : ∃ out s, run (delivery 0) 0 1 (bindAll boundTwice) = .ok out s ∧
      out.results = [⟨1, 1, #[Float.ofBits 0x4000000000000000], 1⟩] := ⟨_, _, rfl, rfl⟩
  refine ⟨hlast, ?_⟩
  rcases run_bindAll hlast (delivery 0) 0 1 5 9 with ⟨e, t, t', hfails, -⟩ | hruns
  · rw [hrun] at hfails
    cases hfails
  · obtain ⟨out₁, t, out', t', hrun₁, hrun', hsame, -, -, -, -, hreported⟩ := hruns
    rw [hrun] at hrun₁
    cases hrun₁
    exact ⟨out, s, out', t', hrun, hrun', hresults, hsame.symm, hreported⟩

end Session

end MatrixEngine
