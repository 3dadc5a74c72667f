/-
Placements over histories.

A placement that placing a node answers with stands unless the node is flagged, and it stands until it is dropped. One
that does not stand is decided anew from what is stated and in force when it is asked for.
- `after_stands`: no step but a drop takes a placement that stands.
- `after_open`: no step makes one stand but a query that decides the node (`Graph.Decides`).
- `placements_stand`: what this comes to over any steps, none of which touches the operator noted at the node.
-/
import MatrixEngine.Proofs.Plan.Complete
import MatrixEngine.Proofs.Plan.Verdicts

namespace MatrixEngine.Graph

variable {g g' : Graph} {id : NodeId} {n : Node} {p : Placement} {op : GraphOp} {ops : List GraphOp}

/-! ## One step -/

theorem standing?_eq (g : Graph) (id : NodeId) : g.standing? id = (g.stance? id).bind fun s => s.2.2 := by
  rw [standing?, stance?, Option.bind_map]
  rfl

theorem standing?_of_mark? (h : g'.mark? id = g.mark? id) : g'.standing? id = g.standing? id := by
  have hmark : ∀ g : Graph, g.standing? id = (g.mark? id).bind fun m => if m.2 then none else m.1 := by
    intro g
    rw [standing?, mark?, Option.bind_map]
    rfl
  rw [hmark g', h, ← hmark]

/-- a step that is neither a query nor a drop leaves what stands as it is -/
theorem after_standing? (hquery : op.isQuery = false) (hdrop : op.drops id = false) :
    (g.after op).standing? id = g.standing? id := by
  cases hforce : op.forces id with
  | false =>
    rcases after_stance? (g := g) hquery hforce hdrop with hsame | ⟨hnone, kind, hnew⟩
    · rw [standing?_eq, hsame, ← standing?_eq]
    · -- a new node is not placed yet
      obtain ⟨n, hn, hstance⟩ := Option.map_eq_some_iff.1 hnew
      have hopen : n.standing = none := congrArg (fun s => s.2.2) hstance
      rw [standing?, hn, standing?, hnone]
      exact hopen
  | true =>
    cases op with
    | force i f =>
      obtain rfl : i = id := by simpa [GraphOp.forces] using hforce
      rw [standing?_eq, after, GraphOp.perform, ending_map, force, stance?_change, if_pos rfl, Option.bind_map]
      rfl
    | _ => cases hforce

/-- **A placement that stands is taken by a drop only.** -/
theorem after_stands (hg : g.Kept) (hdrop : op.drops id = false) (hs : g.standing? id = some p) :
    (g.after op).standing? id = some p := by
  cases hquery : op.isQuery with
  | false => exact (after_standing? hquery hdrop).trans hs
  | true =>
    have hmarks := after_marks hg hquery
    rw [← hs]
    apply standing?_of_mark?
    by_cases hdecides : id ∈ g.Decides op
    · -- the verdict is the mark that stands
      obtain ⟨n, hn, hstands⟩ := Option.bind_eq_some_iff.1 hs
      rw [hmarks.decided id hdecides, verdict?, mark?, hn]
      exact congrArg some (verdict_of_standing hstands)
    · exact hmarks.others id hdecides

theorem after_dropped (hdrop : op.drops id = true) : (g.after op).standing? id = none := by
  rw [standing?_eq, after_drops hdrop, Option.bind_map]
  cases g.node? id <;> rfl

/-- **A placement is made to stand by a query that decides the node only.** -/
theorem after_open (hg : g.Kept) (hdecides : id ∉ g.Decides op) (hs : g.standing? id = none) :
    (g.after op).standing? id = none := by
  cases hdrop : op.drops id with
  | true => exact after_dropped hdrop
  | false =>
    cases hquery : op.isQuery with
    | false => exact (after_standing? hquery hdrop).trans hs
    | true => exact (standing?_of_mark? ((after_marks hg hquery).others id hdecides)).trans hs

/-! ## Histories -/

theorem afterAll_stands (hg : g.Kept) (hdrops : ∀ op ∈ ops, op.drops id = false) (hs : g.standing? id = some p) :
    (g.afterAll ops).standing? id = some p := by
  induction ops generalizing g with
  | nil => exact hs
  | cons op ops ih =>
    have hnext := after_stands hg (hdrops op List.mem_cons_self) hs
    exact ih (hg.after op) (fun op' hop' => hdrops op' (List.mem_cons_of_mem op hop')) hnext

/-- steps none of which decides a node where it is taken -/
def Undecided (id : NodeId) : Graph → List GraphOp → Prop
  | _, [] => True
  | g, op :: ops => id ∉ g.Decides op ∧ Undecided id (g.after op) ops

theorem afterAll_open (hg : g.Kept) (hops : Undecided id g ops) (hs : g.standing? id = none) :
    (g.afterAll ops).standing? id = none := by
  induction ops generalizing g with
  | nil => exact hs
  | cons op ops ih =>
    obtain ⟨hfirst, hrest⟩ := hops
    exact ih (hg.after op) hrest (after_open hg hfirst hs)

theorem outcome_place (hg : g.Kept) (hn : g.node? id = some n) :
    outcome (place id g) = .ok ((g.standing? id).getD (g.bare.placedAnew n.bare)) := by
  obtain ⟨g', hplace, -⟩ := place_answers hn (hg.inputsIn hn)
  rw [hplace, standing?, hn, placedAnew_bare, placing_eq]
  rfl

theorem place_stands (hg : g.Kept) (hplace : place id g = .ok p g') (hn : g'.node? id = some n)
    (hflag : n.recompile = false) : g'.standing? id = some p := by
  cases hn₀ : g.node? id with
  | none =>
    have hfail : place id g = .error (.unknownNode id) g := step_error (node_error hn₀)
    rw [hfail] at hplace
    cases hplace
  | some n₀ =>
    obtain ⟨g₁, hanswer, -⟩ := place_answers hn₀ (hg.inputsIn hn₀)
    obtain ⟨hp, -⟩ := EStateM.Result.ok.inj (hanswer.symm.trans hplace)
    have hmarks := place_marks hn₀ (hg.inputsIn hn₀)
    rw [hplace, ending_ok] at hmarks
    have hmark := hmarks.decided id rfl
    rw [mark?, verdict?, hn, hn₀] at hmark
    have hplacement : n.placement = some p := by
      rw [← hp]
      exact congrArg Prod.fst (Option.some.inj hmark)
    rw [standing?, hn, Option.bind_some, Node.standing, hflag, ← hplacement]
    rfl

/-- **Placements stand until they are dropped.** In any graph that steps lead to:
- if placing a node has answered `p` and the node is not flagged, placing it answers `p` again after any steps that do
  not drop its placement;
- if the node is flagged, placing it answers with what is decided anew for the bare graph, that is from what is stated
  of nodes, forced on them and set;
- so it does after a drop and any steps of which none decides the node;
- the operator noted at the node is still noted after any steps, and lowering the node answers with it. -/
theorem placements_stand {config : PlannerConfig} (hg : g.Reached config) (id : NodeId) :
    (∀ p g₁ n, place id g = .ok p g₁ → g₁.node? id = some n → n.recompile = false →
      ∀ ops : List GraphOp, (∀ op ∈ ops, op.drops id = false) → outcome (place id (g₁.afterAll ops)) = .ok p) ∧
    (∀ n, g.node? id = some n → n.recompile = true → outcome (place id g) = .ok (g.bare.placedAnew n.bare)) ∧
    (∀ (op : GraphOp) ops n, op.drops id = true → Undecided id (g.after op) ops →
      (g.afterAll (op :: ops)).node? id = some n →
      outcome (place id (g.afterAll (op :: ops))) = .ok ((g.afterAll (op :: ops)).bare.placedAnew n.bare)) ∧
    ∀ ops o, g.operator? id = some o →
      (g.afterAll ops).operator? id = some o ∧ lower id (g.afterAll ops) = .ok o (g.afterAll ops) := by
  have hkept := hg.kept
  refine ⟨?_, ?_, ?_, ?_⟩
  · intro p g₁ n hplace hn hflag ops hdrops
    have hkept₁ : g₁.Kept := after_eq (.place id) rfl hplace ▸ hkept.after (.place id)
    have hstands := afterAll_stands hkept₁ hdrops (place_stands hkept hplace hn hflag)
    obtain ⟨n', hn', -⟩ := Option.bind_eq_some_iff.1 hstands
    rw [outcome_place (hkept₁.afterAll ops) hn', hstands]
    rfl
  · intro n hn hflag
    have hopen : g.standing? id = none := by
      rw [standing?, hn, Option.bind_some, Node.standing, if_pos hflag]
    rw [outcome_place hkept hn, hopen]
    rfl
  · intro op ops n hdrop hundecided hn
    have hopen : (g.afterAll (op :: ops)).standing? id = none :=
      afterAll_open (g := g.after op) (hkept.after op) hundecided (after_dropped hdrop)
    rw [outcome_place (hkept.afterAll (op :: ops)) hn, hopen]
    rfl
  · intro ops o ho
    have hnoted := (afterAll_changes hkept ops).operator? ho
    exact ⟨hnoted, lower_noted hnoted⟩

def turnedSteps : List GraphOp :=
  [.addInput "X" ⟨some 4, some 4, 1000, 1000, none⟩, .addReorg .transpose [⟨0⟩] {}]

def turned : Graph := (ofConfig { strategy := .heuristic }).afterAll turnedSteps

/-- the shape of the square is withdrawn -/
def withdrawn : List GraphOp := [.resize ⟨0⟩ (.unknown 1000), .refreshAll, .place ⟨0⟩]

/-- the transpose placed, told to drop its placement when the shape is withdrawn, placed again, and the shape given
back -/
def returnedSteps : List GraphOp := turnedSteps ++ .place ⟨1⟩ :: .invalidate ⟨1⟩ :: withdrawn ++
  [.place ⟨1⟩, .resize ⟨0⟩ ⟨some 4, some 4, 1000, 1000, none⟩]

/-- the transpose is placed locally, and still so when the shape of the square is withdrawn and the transpose is lowered;
told to drop its placement it goes to the cluster, with a flag, so that it comes back with the shape -/
theorem turned_stays_until_dropped : ∃ g₁, place ⟨1⟩ turned = .ok .local g₁ ∧
    outcome (place ⟨1⟩ (g₁.afterAll (withdrawn ++ [.lower ⟨1⟩]))) = .ok .local ∧
    outcome (place ⟨1⟩ (g₁.afterAll (.invalidate ⟨1⟩ :: withdrawn))) = .ok .distributed ∧
    outcome (place ⟨1⟩ ((ofConfig { strategy := .heuristic }).afterAll returnedSteps)) = .ok .local := by
  have hturned : turned.Reached { strategy := .heuristic } := ⟨turnedSteps, rfl⟩
  obtain ⟨g₁, n, hplace, hn, hflag⟩ : ∃ g₁ n, place ⟨1⟩ turned = .ok .local g₁ ∧ g₁.node? ⟨1⟩ = some n ∧
      n.recompile = false := ⟨_, _, rfl, rfl, rfl⟩
  have hplaced : turned.after (.place ⟨1⟩) = g₁ := by rw [after, GraphOp.perform, ending_map, hplace, ending_ok]
  refine ⟨g₁, hplace, ?_, ?_, ?_⟩
  · obtain ⟨hstays, -⟩ := placements_stand hturned ⟨1⟩
    exact hstays .local g₁ n hplace hn hflag _ (by decide)
  · rw [← hplaced]
    obtain ⟨-, -, hdropped, -⟩ := placements_stand (hturned.after (.place ⟨1⟩)) ⟨1⟩
    have hundecided : Undecided ⟨1⟩ ((turned.after (.place ⟨1⟩)).after (.invalidate ⟨1⟩)) withdrawn := by
      refine ⟨?_, ?_, ?_, trivial⟩ <;>
        · rintro (hplaces | ⟨n, hn, -, -, hnoted⟩)
          · cases hplaces
          · exact hnoted rfl
    obtain ⟨m, hm, hanew⟩ : ∃ m,
        ((turned.after (.place ⟨1⟩)).afterAll (.invalidate ⟨1⟩ :: withdrawn)).node? ⟨1⟩ = some m ∧
        ((turned.after (.place ⟨1⟩)).afterAll (.invalidate ⟨1⟩ :: withdrawn)).placedAnew m = .distributed :=
      ⟨_, rfl, rfl⟩
    rw [hdropped (.invalidate ⟨1⟩) withdrawn m rfl hundecided hm, placedAnew_bare, hanew]
  · set returned := (ofConfig { strategy := .heuristic }).afterAll returnedSteps with hreturned
    obtain ⟨-, hflagged, -⟩ := placements_stand (g := returned) ⟨returnedSteps, hreturned⟩ ⟨1⟩
    obtain ⟨m, hm, hflag, hanew⟩ : ∃ m, returned.node? ⟨1⟩ = some m ∧ m.recompile = true ∧
        returned.placedAnew m = .local := ⟨_, rfl, rfl, rfl⟩
    rw [hflagged m hm hflag, placedAnew_bare, hanew]

end MatrixEngine.Graph
