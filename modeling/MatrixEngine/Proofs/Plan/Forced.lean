/-
Forced placements over histories.

Forcing a node writes the force and nothing else, so a placement that was noted before without a flag still stands
(`Node.standing`) and is answered first; only dropping it lets the force through. No other step writes or drops what
stands: a query at a forced node notes the answer that it gives (`Alike.under`), and the rest leaves what placing reads
of the node as it is (`after_stance?`).
- `Under.of_after`: how the answer at a forced node goes on over one step.
- `Under.of_afterAll`: and over all the steps that follow the last force.
- `place_forced`: a forced node is placed as forced, unless an earlier placement stands.
-/
import MatrixEngine.Proofs.Plan.Queries

namespace MatrixEngine

/-- the placement that stands: noted, and not flagged to be decided anew -/
def Node.standing (n : Node) : Option Placement := if n.recompile then none else n.placement

/-- what placing a forced node reads of it -/
def Node.stance (n : Node) : NodeKind × Option Placement × Option Placement := (n.kind, n.forced, n.standing)

theorem Node.standing_forget (n : Node) : n.forget.standing = none := by
  unfold standing
  split <;> rfl

/-- steps that drop the placement of a node -/
def GraphOp.drops (id : NodeId) : GraphOp → Bool
  | invalidate i => i = id
  | configure _ => true
  | _ => false

/-- steps that write the force of a node -/
def GraphOp.forces (id : NodeId) : GraphOp → Bool
  | force i _ => i = id
  | _ => false

namespace Graph

variable {β : Type} {g g' : Graph} {id : NodeId} {n : Node} {p q : Placement}

/-- what placing reads of the node of a number -/
def stance? (g : Graph) (id : NodeId) : Option (NodeKind × Option Placement × Option Placement) :=
  (g.node? id).map Node.stance

/-- the placement that stands at the node of a number -/
def standing? (g : Graph) (id : NodeId) : Option Placement := (g.node? id).bind Node.standing

/-- a forced reorganisation is placed where it stands, and else where it is forced to -/
theorem placing_of_forced {op : Reorg} (hkind : n.kind = .reorg op) (hforced : n.forced = some p) :
    g.placing n = n.standing.getD p := by
  have hanew : g.placedAnew n = p := by
    rw [placedAnew, hkind, hforced]
    rfl
  rw [placing, hanew, Node.standing]
  cases n.recompile <;> cases n.placement <;> rfl

/-! ## What steps do to a stance -/

theorem stance?_of_map (h : g'.nodes.map Node.stance = g.nodes.map Node.stance) (id : NodeId) :
    g'.stance? id = g.stance? id := by
  have hget : ∀ g : Graph, g.stance? id = (g.nodes.map Node.stance)[id.index]? := fun _ => Array.getElem?_map.symm
  rw [hget g', h, ← hget]

theorem stance?_change (i id : NodeId) (f : Node → Node) (g : Graph) :
    (ending (change i f g)).stance? id = if i = id then (g.node? id).map fun n => (f n).stance else g.stance? id := by
  have hupdate : (g.update i f).stance? id =
      if i = id then (g.node? id).map fun n => (f n).stance else g.stance? id := by
    rw [stance?, node?_update]
    split_ifs
    · exact Option.map_map ..
    · rfl
  cases hn : g.node? i with
  | some n =>
    have hchange : change i f g = .ok () (g.update i f) := step_ok (node_ok hn)
    rw [hchange]
    exact hupdate
  | none =>
    have hchange : change i f g = .error (.unknownNode i) g := step_error (node_error hn)
    rw [hchange, ending_error]
    split_ifs with hid
    · rw [stance?, ← hid, hn]
      rfl
    · rfl

theorem stance?_refreshed (g : Graph) (i id : NodeId) : (g.refreshed i).stance? id = g.stance? id := by
  have hsize : ∀ (n : Node) s, { n with size := s }.stance = n.stance := fun _ _ => rfl
  exact stance?_of_map (g.map_refreshed i hsize) id

theorem stance?_refreshAll (g : Graph) (id : NodeId) : (ending (refreshAll g)).stance? id = g.stance? id := by
  have hfold : ∀ (is : List Nat) (g : Graph),
      (is.foldl (fun g i => g.refreshed ⟨i⟩) g).stance? id = g.stance? id := by
    intro is
    induction is with
    | nil => exact fun _ => rfl
    | cons i is ih => exact fun g => (ih _).trans (stance?_refreshed g ⟨i⟩ id)
  exact hfold _ g

theorem stance?_attach {inputs : List NodeId} (hin : ∀ i ∈ inputs, ∃ m, g.node? i = some m) (name : String)
    (kind : NodeKind) (size : SizeInfo) (position : Position) (id : NodeId) :
    (g.attach name kind size inputs position).stance? id =
      if id = ⟨g.nodes.size⟩ then some (kind, none, none) else g.stance? id := by
  have hparents : ∀ (n : Node) ps, { n with parents := ps }.stance = n.stance := fun _ _ => rfl
  exact map_attach hparents hin name kind size position id

theorem stance?_addReorg {op : Reorg} {inputs : List NodeId} {position : Position}
    (h : addReorg op inputs position g = .ok id g') : g'.stance? id = some (.reorg op, none, none) := by
  rcases addReorg_cases op inputs position g with ⟨hin, hok⟩ | ⟨i, -, -, herror⟩
  · obtain ⟨rfl, rfl⟩ := EStateM.Result.ok.inj (hok.symm.trans h)
    rw [stance?_refreshed, stance?_attach hin, if_pos rfl]
  · rw [herror] at h
    cases h

/-- **Only forces, drops and queries touch a stance**: any other step leaves that of a node as it is, and a node that it
adds is not forced. -/
theorem after_stance? {op : GraphOp} (hquery : op.isQuery = false) (hforce : op.forces id = false)
    (hdrop : op.drops id = false) :
    (g.after op).stance? id = g.stance? id ∨
      g.node? id = none ∧ ∃ kind, (g.after op).stance? id = some (kind, none, none) := by
  unfold after
  cases op with
  | addInput name size =>
    have hending : ending ((GraphOp.addInput name size).perform g) = g.attach name .input size [] {} := rfl
    rw [hending, stance?_attach (by simp)]
    split_ifs with hid
    · exact .inr ⟨hid ▸ g.node?_size, .input, rfl⟩
    · exact .inl rfl
  | addReorg op inputs position =>
    rw [GraphOp.perform, ending_map]
    rcases addReorg_cases op inputs position g with ⟨hin, hok⟩ | ⟨i, -, -, herror⟩
    · rw [hok, ending_ok, stance?_refreshed, stance?_attach hin]
      split_ifs with hid
      · exact .inr ⟨hid ▸ g.node?_size, _, rfl⟩
      · exact .inl rfl
    · rw [herror]
      exact .inl rfl
  | rename i name =>
    rw [GraphOp.perform, ending_map, rename, stance?_change]
    split_ifs <;> exact .inl rfl
  | resize i size =>
    rw [GraphOp.perform, ending_map, resize, stance?_change]
    split_ifs <;> exact .inl rfl
  | force i f =>
    have hne : i ≠ id := by simpa [GraphOp.forces] using hforce
    rw [GraphOp.perform, ending_map, force, stance?_change, if_neg hne]
    exact .inl rfl
  | invalidate i =>
    have hne : i ≠ id := by simpa [GraphOp.drops] using hdrop
    rw [GraphOp.perform, ending_map, invalidate, stance?_change, if_neg hne]
    exact .inl rfl
  | refresh i =>
    rw [GraphOp.perform, ending_map]
    cases hn : g.node? i with
    | none =>
      have hrefresh : refresh i g = .error (.unknownNode i) g := step_error (node_error hn)
      rw [hrefresh]
      exact .inl rfl
    | some n =>
      have hrefresh : refresh i g = .ok () (g.refreshed i) := step_ok (node_ok hn)
      rw [hrefresh]
      exact .inl (stance?_refreshed g i id)
  | refreshAll =>
    rw [GraphOp.perform, ending_map]
    exact .inl (stance?_refreshAll g id)
  | configure config => cases hdrop
  | _ => cases hquery

theorem after_drops {op : GraphOp} (hdrop : op.drops id = true) :
    (g.after op).stance? id = (g.node? id).map fun n => (n.kind, n.forced, none) := by
  have hforget : ∀ n : Node, n.forget.stance = (n.kind, n.forced, none) := by
    intro n
    rw [Node.stance, n.standing_forget]
    rfl
  unfold after
  cases op with
  | invalidate i =>
    obtain rfl : i = id := by simpa [GraphOp.drops] using hdrop
    rw [GraphOp.perform, ending_map, invalidate, stance?_change, if_pos rfl, funext hforget]
  | configure config =>
    change stance? { g with config := config, nodes := g.nodes.map Node.forget } id = _
    rw [stance?, node?, Array.getElem?_map, Option.map_map, ← funext hforget]
    rfl
  | _ => cases hdrop

/-! ## The answer at a forced node -/

/-- a reorganisation that is forced to `p` and is placed at `q` -/
def Under (g : Graph) (id : NodeId) (p q : Placement) : Prop :=
  ∃ n op, g.node? id = some n ∧ n.kind = .reorg op ∧ n.forced = some p ∧ g.placing n = q

theorem under_iff : g.Under id p q ↔ ∃ op s, g.stance? id = some (.reorg op, some p, s) ∧ s.getD p = q := by
  constructor
  · rintro ⟨n, op, hn, hkind, hforced, rfl⟩
    refine ⟨op, n.standing, ?_, (placing_of_forced hkind hforced).symm⟩
    rw [stance?, hn, Option.map_some, Node.stance, hkind, hforced]
  · rintro ⟨op, s, hs, rfl⟩
    obtain ⟨n, hn, hstance⟩ := Option.map_eq_some_iff.1 hs
    obtain ⟨hkind, hrest⟩ := Prod.mk.inj hstance
    obtain ⟨hforced, rfl⟩ := Prod.mk.inj hrest
    exact ⟨n, op, hn, hkind, hforced, placing_of_forced hkind hforced⟩

/-- a query notes the answer that it gives -/
theorem Alike.under (h : Alike g g') (hunder : g'.Under id p q) : g.Under id p q := by
  obtain ⟨n', op, hn', hkind, hforced, hplacing⟩ := hunder
  obtain ⟨n, hn, hsame, hp⟩ := node_of_same h.bare.symm (fun i => (h.placing i).symm) hn'
  have hk : n.kind = n'.kind := show n.bare.kind = n'.bare.kind by rw [hsame]
  have hf : n.forced = n'.forced := Node.forced_of_bare hsame
  exact ⟨n, op, hn, hk.trans hkind, hf.trans hforced, hp.trans hplacing⟩

/-- **One step at a forced node**: it was forced before, with the same answer, or any answer if the step drops it. -/
theorem Under.of_after (hg : g.Ordered) {op : GraphOp} (hforce : op.forces id = false)
    (h : (g.after op).Under id p q) : ∃ q₀, g.Under id p q₀ ∧ q = if op.drops id then p else q₀ := by
  cases hdrop : op.drops id with
  | true =>
    obtain ⟨r, s, hs, rfl⟩ := under_iff.1 h
    rw [after_drops hdrop] at hs
    obtain ⟨n, hn, hstance⟩ := Option.map_eq_some_iff.1 hs
    obtain ⟨hkind, hrest⟩ := Prod.mk.inj hstance
    obtain ⟨hforced, rfl⟩ := Prod.mk.inj hrest
    exact ⟨g.placing n, ⟨n, r, hn, hkind, hforced, rfl⟩, rfl⟩
  | false =>
    cases hquery : op.isQuery with
    | true => exact ⟨q, (after_alike hg hquery).under h, rfl⟩
    | false =>
      obtain ⟨r, s, hs, hq⟩ := under_iff.1 h
      rcases after_stance? (g := g) hquery hforce hdrop with hsame | ⟨-, kind, hnew⟩
      · exact ⟨q, under_iff.2 ⟨r, s, hsame ▸ hs, hq⟩, rfl⟩
      · rw [hnew] at hs
        cases hs

/-- a node that was just forced is placed where it stands, and else as forced -/
theorem Under.of_force {f : Option Placement} (h : (g.after (.force id f)).Under id p q) :
    f = some p ∧ q = (g.standing? id).getD p := by
  obtain ⟨r, s, hs, rfl⟩ := under_iff.1 h
  rw [after, GraphOp.perform, ending_map, force, stance?_change, if_pos rfl] at hs
  obtain ⟨n, hn, hstance⟩ := Option.map_eq_some_iff.1 hs
  obtain ⟨-, hrest⟩ := Prod.mk.inj hstance
  obtain ⟨hforced, hs⟩ := Prod.mk.inj hrest
  refine ⟨hforced, ?_⟩
  rw [standing?, hn, Option.bind_some, ← hs]
  rfl

/-! ## Histories -/

/-- the answer at a forced node over steps that do not write its force -/
theorem Under.of_afterAll (hg : g.Kept) {ops : List GraphOp} (hforce : ∀ op ∈ ops, op.forces id = false)
    (h : (g.afterAll ops).Under id p q) : ∃ q₀, g.Under id p q₀ ∧ q = if ops.any (·.drops id) then p else q₀ := by
  induction ops using List.reverseRecOn generalizing q with
  | nil => exact ⟨q, h, rfl⟩
  | append_singleton ops op ih =>
    rw [afterAll_concat] at h
    have hkept : (g.afterAll ops).Kept := (afterAll_changes hg ops).kept hg
    obtain ⟨q₁, hunder, rfl⟩ := h.of_after hkept.earlier (hforce op (by simp))
    obtain ⟨q₀, hunder₀, rfl⟩ := ih (fun op' hop' => hforce op' (by simp [hop'])) hunder
    refine ⟨q₀, hunder₀, ?_⟩
    rw [List.any_append, List.any_cons, List.any_nil, Bool.or_false]
    cases op.drops id <;> cases ops.any (·.drops id) <;> rfl

/-- steps that end in the force of a node to `p` and steps that do not write its force -/
def LastForce (id : NodeId) (p : Placement) (ops before later : List GraphOp) : Prop :=
  ops = before ++ .force id (some p) :: later ∧ ∀ op ∈ later, op.forces id = false

/-- a node of a new graph is forced by a step only -/
theorem exists_lastForce (config : PlannerConfig) {ops : List GraphOp}
    (h : ((ofConfig config).afterAll ops).Under id p q) : ∃ before later, LastForce id p ops before later := by
  induction ops using List.reverseRecOn generalizing q with
  | nil =>
    obtain ⟨n, op, hn, -⟩ := h
    cases hn
  | append_singleton ops op ih =>
    rw [afterAll_concat] at h
    have hkept : ((ofConfig config).afterAll ops).Kept := Reached.kept ⟨ops, rfl⟩
    cases hforce : op.forces id with
    | true =>
      cases op with
      | force i f =>
        obtain rfl : i = id := by simpa [GraphOp.forces] using hforce
        obtain ⟨rfl, -⟩ := h.of_force
        exact ⟨ops, [], rfl, by simp⟩
      | _ => cases hforce
    | false =>
      obtain ⟨q₀, hunder, -⟩ := h.of_after hkept.earlier hforce
      obtain ⟨before, later, rfl, hlater⟩ := ih hunder
      refine ⟨before, later ++ [op], by simp, fun op' hop' => ?_⟩
      rcases List.mem_append.1 hop' with hop' | hop'
      · exact hlater op' hop'
      · rwa [List.mem_singleton.1 hop']

/-- **A forced node is placed as forced, unless an earlier placement stands.** In any graph that steps lead to, a
reorganisation that is forced was forced by a step. Wherever the last force stands among the steps, placing the node now
succeeds with the forced placement, whatever else was estimated, placed and changed; only a placement that stood when
it was forced, and was not dropped since, is answered instead. -/
theorem place_forced {config : PlannerConfig} {ops : List GraphOp} {op : Reorg}
    (hn : ((ofConfig config).afterAll ops).node? id = some n) (hkind : n.kind = .reorg op)
    (hforced : n.forced = some p) :
    (∃ before later, LastForce id p ops before later) ∧
    ∀ before later, LastForce id p ops before later →
      outcome (place id ((ofConfig config).afterAll ops)) = .ok
        (if later.any (·.drops id) then p else (((ofConfig config).afterAll before).standing? id).getD p) := by
  have hunder : ((ofConfig config).afterAll ops).Under id p (((ofConfig config).afterAll ops).placing n) :=
    ⟨n, op, hn, hkind, hforced, rfl⟩
  refine ⟨exists_lastForce config hunder, ?_⟩
  rintro before later ⟨rfl, hlater⟩
  have hkept : ((ofConfig config).afterAll (before ++ .force id (some p) :: later)).Kept := Reached.kept ⟨_, rfl⟩
  have hplace : outcome (place id ((ofConfig config).afterAll (before ++ .force id (some p) :: later))) =
      .ok (((ofConfig config).afterAll (before ++ .force id (some p) :: later)).placing n) := by
    obtain ⟨g', hok, -⟩ := place_answers hn (hkept.inputsIn hn)
    rw [hok]
    rfl
  have hforcedKept : (((ofConfig config).afterAll before).after (.force id (some p))).Kept := by
    rw [← afterAll_concat]
    exact Reached.kept ⟨_, rfl⟩
  have hsplit : (ofConfig config).afterAll (before ++ .force id (some p) :: later) =
      (((ofConfig config).afterAll before).after (.force id (some p))).afterAll later := afterAll_append _ _ _
  rw [hplace]
  rw [hsplit] at hunder ⊢
  obtain ⟨q₀, hforce, hq⟩ := hunder.of_afterAll hforcedKept hlater
  rw [hq, hforce.of_force.2]

/-- a transpose that was placed locally, forced to the cluster and told to drop its placement, with the size of its
input restated in between -/
def redecidedSteps : List GraphOp :=
  [.addInput "X" ⟨some 4, some 4, 1000, 1000, none⟩, .addReorg .transpose [⟨0⟩] {}, .place ⟨1⟩,
    .force ⟨1⟩ (some .distributed), .resize ⟨0⟩ (.unknown 1000), .invalidate ⟨1⟩, .refreshAll]

/-- it is placed as forced -/
theorem redecided_is_forced :
    outcome (place ⟨1⟩ ((ofConfig { strategy := .heuristic }).afterAll redecidedSteps)) = .ok .distributed := by
  have hlast : LastForce ⟨1⟩ .distributed redecidedSteps (redecidedSteps.take 3) (redecidedSteps.drop 4) :=
    ⟨rfl, by decide⟩
  obtain ⟨n, hn, hkind, hforced⟩ :
      ∃ n, ((ofConfig { strategy := .heuristic }).afterAll redecidedSteps).node? ⟨1⟩ = some n ∧
        n.kind = .reorg .transpose ∧ n.forced = some .distributed := ⟨_, rfl, rfl, rfl⟩
  exact (place_forced hn hkind hforced).2 _ _ hlast

/-- a transpose that was placed locally and then forced to the cluster is still placed locally -/
theorem earlier_placement_stands :
    outcome (place ⟨1⟩ ((ofConfig { strategy := .heuristic }).afterAll (redecidedSteps.take 4))) = .ok .local ∧
      (((ofConfig { strategy := .heuristic }).afterAll (redecidedSteps.take 4)).node? ⟨1⟩).bind (·.forced) =
        some .distributed := ⟨rfl, rfl⟩

end Graph

end MatrixEngine
