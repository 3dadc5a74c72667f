/-
Queries commute.

Estimating, placing and lowering note what they come to, flag nodes, and answer from notes and flags later on. What they
answer follows from the graph before any of them: the plan of a node (`Graph.plan`) is what lowering it answers with, but for
the numbers of operators, which are not part of the written form. Every query, failing ones included, leaves a graph that is
alike to ask (`Alike`): with the same bare nodes, the same answers about placements and the same plans.
- `plan_congr`: a note that says what the plan says changes no plan.
- `lower_tells`, `lowerAll_tells`: lowering answers with plans and leaves the graph alike.
- `queries_commute`: after any queries the written plan of a graph and its placements are those of before.
-/
import MatrixEngine.Proofs.Plan.Reached

namespace MatrixEngine

/-! ## Operators without numbers -/

namespace Operator

mutual

/-- an operator without numbers -/
def unnumbered : Operator → Operator
  | ⟨_, kind, placement, output, correction, position, inputs⟩ =>
    ⟨0, kind, placement, output, correction, position, unnumberedAll inputs⟩

def unnumberedAll : List Operator → List Operator
  | [] => []
  | o :: rest => unnumbered o :: unnumberedAll rest

end

theorem unnumberedAll_eq_map (os : List Operator) : unnumberedAll os = os.map unnumbered := by
  induction os with
  | nil => rfl
  | cons o os ih => rw [unnumberedAll, ih, List.map_cons]

mutual

theorem toJson_unnumbered : ∀ o : Operator, o.unnumbered.toJson = o.toJson
  | ⟨_, kind, placement, output, correction, position, inputs⟩ => by
    simp only [unnumbered, toJson, toJsonAll_unnumbered inputs]

theorem toJsonAll_unnumbered : ∀ os : List Operator, toJsonAll (unnumberedAll os) = toJsonAll os
  | [] => rfl
  | o :: rest => by rw [unnumberedAll, toJsonAll, toJsonAll, toJson_unnumbered o, toJsonAll_unnumbered rest]

end

end Operator

/-- steps that only ask: estimates, placements and lowerings -/
def GraphOp.isQuery : GraphOp → Bool
  | outputBytes _ | memoryBytes _ | place _ | lower _ | lowerAll => true
  | _ => false

namespace Graph

variable {β γ δ : Type} {g g' g'' : Graph} {id i : NodeId} {n n' : Node} {o a : Operator}

/-! ## Plans -/

/-- the operator of a reorganisation over an operator of its input, without numbers of its own -/
def planOver (g : Graph) (n : Node) (op : Reorg) (input : Operator) : Operator :=
  match op with
  | .diagToVector =>
    ⟨0, .aggregate .sum, .distributed, n.size, some .none, n.position,
      [.group 0 ⟨0, .partialAggregate .diagToVector .col, .distributed, n.size, some (.ofPartial .diagToVector .col),
        n.position, [input]⟩ .distributed n.size n.position]⟩
  | op => .transform 0 input op (g.placing n) n.size n.position

/-- what lowering a node answers with, without numbers: what is noted there, or what it is lowered to anew -/
def plan (g : Graph) (id : NodeId) : Except PlanError Operator :=
  match g.node? id with
  | none => .error (.unknownNode id)
  | some n =>
    match n.lowered with
    | some o => .ok o.unnumbered
    | none =>
      match n.kind, n.inputs with
      | .input, _ => .ok (.data 0 n.name n.size n.position)
      | .reorg op, [input] =>
        if _h : input.index < id.index then (plan g input).map (g.planOver n op)
        else .error (loweringError n (.inputOrder input))
      | .reorg op, inputs => .error (loweringError n (.inputCount op inputs.length))
termination_by id.index

theorem plan_noted (hn : g.node? id = some n) (ho : n.lowered = some o) : g.plan id = .ok o.unnumbered := by
  rw [plan, hn]
  simp only [ho]

theorem loweringError_congr (h : n'.bare = n.bare) (fault : LoweringFault) :
    loweringError n' fault = loweringError n fault := show loweringError n'.bare fault = loweringError n.bare fault by rw [h]

theorem planOver_congr (hsame : n'.bare = n.bare) (hplacing : g'.placing n' = g.placing n) (op : Reorg) :
    g'.planOver n' op = g.planOver n op := by
  obtain ⟨-, -, hsize, -, hposition⟩ := Node.of_bare hsame
  funext a
  cases op <;> simp only [planOver, hsize, hposition, hplacing]

/-- **Plans follow from bare nodes, placements and notes**, and a note that says what the plan says changes no plan. -/
theorem plan_congr (hbare : g'.bare = g.bare) (hplacing : ∀ i, g'.placing? i = g.placing? i)
    (hnoted : ∀ i n n', g.node? i = some n → g'.node? i = some n' →
      n'.lowered = n.lowered ∨ ∃ o, n'.lowered = some o ∧ g.plan i = .ok o.unnumbered) (id : NodeId) :
    g'.plan id = g.plan id := by
  induction hk : id.index using Nat.strong_induction_on generalizing id with
  | _ k ih =>
    cases hn : g.node? id with
    | none =>
      rw [plan, node?_eq_none_of_bare hbare hn, plan, hn]
    | some n =>
      obtain ⟨n', hn', hsame, hp⟩ := node_of_same hbare hplacing hn
      rcases hnoted id n n' hn hn' with hlowered | ⟨o, ho, hplan⟩
      · obtain ⟨hname, hkind, hsize, hinputs, hposition⟩ := Node.of_bare hsame
        rw [plan, hn', plan, hn]
        simp only [hlowered, hkind, hinputs, hname, hsize, hposition, loweringError_congr hsame,
          planOver_congr hsame hp]
        cases n.lowered with
        | some o => rfl
        | none =>
          cases n.kind with
          | input => rfl
          | reorg op =>
            rcases n.inputs with _ | ⟨input, _ | ⟨second, rest⟩⟩
            · rfl
            · -- only the plan of the input is left, which comes before
              by_cases hlt : input.index < id.index
              · simp only [dif_pos hlt, ih input.index (hk ▸ hlt) input rfl]
              · simp only [dif_neg hlt]
            · rfl
      · rw [hplan, plan_noted hn' ho]

/-! ## Graphs that are alike to ask -/

/-- the same bare nodes, answers about placements, and plans -/
structure Alike (g g' : Graph) : Prop where
  bare : g'.bare = g.bare
  placing : ∀ i, g'.placing? i = g.placing? i
  plan : ∀ i, g'.plan i = g.plan i

namespace Alike

theorem refl (g : Graph) : Alike g g := ⟨rfl, fun _ => rfl, fun _ => rfl⟩

theorem trans (h : Alike g g') (h' : Alike g' g'') : Alike g g'' :=
  ⟨h'.bare.trans h.bare, fun i => (h'.placing i).trans (h.placing i), fun i => (h'.plan i).trans (h.plan i)⟩

theorem sinks (h : Alike g g') : g'.sinks = g.sinks := by
  have hsinks : ∀ g : Graph, g.sinks = g.bare.sinks := by
    intro g
    rw [Graph.sinks, Graph.sinks, Graph.bare, Array.toList_map, List.filter_map, List.map_map]
    rfl
  rw [hsinks g', h.bare, ← hsinks]

end Alike

/-- estimating and placing leave a graph alike: they touch no note of an operator -/
theorem Settles.alike (h : Settles g g') : Alike g g' := by
  refine ⟨h.bare, h.placing, plan_congr h.bare h.placing fun i n n' hn hn' => .inl ?_⟩
  obtain ⟨m, hm, hsame⟩ := node_of_unplaced h.unplaced hn
  obtain rfl := Option.some.inj (hn'.symm.trans hm)
  exact show n'.unplaced.lowered = n.unplaced.lowered by rw [hsame]

/-- so does noting at a node the operator that its plan says, whatever numbers are taken -/
theorem Alike.note (hplan : g.plan id = .ok o.unnumbered) (k : Nat) :
    Alike g { g.update id fun n => { n with lowered := some o } with nextOperator := k } := by
  set g' : Graph := { g.update id fun n => { n with lowered := some o } with nextOperator := k } with hg'
  have hnode : ∀ j, g'.node? j =
      if id = j then (g.node? j).map fun n => { n with lowered := some o } else g.node? j :=
    fun j => node?_update g id j _
  have hbare : g'.bare = g.bare := by
    have hsame : ∀ n : Node, { n with lowered := some o }.bare = n.bare := fun _ => rfl
    have hnodes : g'.nodes.map Node.bare = g.nodes.map Node.bare := g.map_update id hsame
    simp only [Graph.bare, hnodes]
    rfl
  have hplacing : ∀ i, g'.placing? i = g.placing? i := by
    intro i
    rw [placing?, placing?, hnode, funext (placing_congr hbare)]
    by_cases hid : id = i
    · rw [if_pos hid, Option.map_map]
      rfl
    · rw [if_neg hid]
  refine ⟨hbare, hplacing, plan_congr hbare hplacing fun i n n' hn hn' => ?_⟩
  rw [hnode, hn] at hn'
  by_cases hid : id = i
  · subst hid
    rw [if_pos rfl] at hn'
    obtain rfl := Option.some.inj hn'
    exact .inr ⟨o, rfl, hplan⟩
  · rw [if_neg hid] at hn'
    obtain rfl := Option.some.inj hn'
    exact .inl rfl

/-- nodes come after their inputs -/
def Ordered (g : Graph) : Prop := ∀ {i n}, g.node? i = some n → ∀ p ∈ n.inputs, p.index < i.index

theorem Ordered.of_alike (hg : g.Ordered) (h : Alike g g') : g'.Ordered := by
  intro i n' hn'
  obtain ⟨n, hn, hsame⟩ := node_of_bare h.bare.symm hn'
  obtain ⟨-, -, -, hinputs, -⟩ := Node.of_bare hsame
  exact hinputs ▸ hg hn

/-! ## Answers of queries -/

/-- a step whose answer as `f` reads it, or whose error, is as told, and that leaves the graph alike -/
def Tells (f : β → γ) (m : GraphM β) (g : Graph) (r : Except PlanError γ) : Prop :=
  (outcome (m g)).map f = r ∧ Alike g (ending (m g))

namespace Tells

variable {f : β → γ} {m : GraphM β} {b : β} {e : PlanError}

theorem of_ok (hm : m g = .ok b g') (h : Alike g g') : Tells f m g (.ok (f b)) := by
  rw [Tells, hm]
  exact ⟨rfl, h⟩

theorem of_error (hm : m g = .error e g') (h : Alike g g') : Tells f m g (.error e) := by
  rw [Tells, hm]
  exact ⟨rfl, h⟩

/-- it only matters what the step does in this graph -/
theorem of_eq {k : GraphM β} {r : Except PlanError γ} (hm : m g = k g) (h : Tells f k g r) : Tells f m g r := by
  rwa [Tells, hm]

theorem bind {ε : Type} {f' : δ → ε} {k : β → GraphM δ} {r : Except PlanError γ} {r' : γ → Except PlanError ε}
    (hm : Tells f m g r) (hk : ∀ b g', m g = .ok b g' → Alike g g' → Tells f' (k b) g' (r' (f b))) :
    Tells f' (m >>= k) g (r >>= r') := by
  obtain ⟨hr, h⟩ := hm
  cases hrun : m g with
  | error e g' =>
    rw [hrun] at hr h
    subst hr
    exact of_error (step_error hrun) h
  | ok b g' =>
    rw [hrun] at hr h
    subst hr
    obtain ⟨hr', h'⟩ := hk b g' hrun h
    rw [Tells, step_ok hrun]
    exact ⟨hr', h.trans h'⟩

end Tells

theorem lowerOver_tells (hg : g.Ordered) {op : Reorg} (hn : g.node? id = some n) (hsame : n'.bare = n.bare)
    (hplan : g.plan id = .ok (g.planOver n op a.unnumbered)) :
    Tells Operator.unnumbered (lowerOver id n' op a >>= noteLowered id) g (.ok (g.planOver n op a.unnumbered)) := by
  obtain ⟨-, -, hsize, -, hposition⟩ := Node.of_bare hsame
  have hdirect : op ≠ .diagToVector → Tells Operator.unnumbered ((do
      let p ← place id
      return .transform (← freshNumber) a op p n'.size n'.position) >>= noteLowered id) g
        (.ok (g.planOver n op a.unnumbered)) := by
    intro hop
    obtain ⟨g₁, hplace, hsettles⟩ := place_answers hn (inputsIn_of_earlier hn (hg hn))
    have hmade : g.planOver n op a.unnumbered =
        (Operator.transform g₁.nextOperator a op (g.placing n) n'.size n'.position).unnumbered := by
      rw [hsize, hposition]
      cases op with
      | transpose => rfl
      | diagToMatrix => rfl
      | diagToVector => exact absurd rfl hop
    have hstep : (place id >>= fun p => do
        return .transform (← freshNumber) a op p n'.size n'.position : GraphM Operator) g =
        .ok (.transform g₁.nextOperator a op (g.placing n) n'.size n'.position)
          { g₁ with nextOperator := g₁.nextOperator + 1 } := by
      rw [step_ok hplace]
      rfl
    rw [hmade] at hplan ⊢
    exact .of_ok (step_ok hstep) (hsettles.alike.trans (.note ((hsettles.alike.plan id).trans hplan) _))
  cases op with
  | transpose => exact hdirect (by simp)
  | diagToMatrix => exact hdirect (by simp)
  | diagToVector =>
    have hmade : g.planOver n .diagToVector a.unnumbered = Operator.unnumbered ⟨g.nextOperator + 2, .aggregate .sum,
        .distributed, n'.size, some .none, n'.position, [.group (g.nextOperator + 1) ⟨g.nextOperator,
          .partialAggregate .diagToVector .col, .distributed, n'.size, some (.ofPartial .diagToVector .col), n'.position,
          [a]⟩ .distributed n'.size n'.position]⟩ := by
      rw [hsize, hposition]
      rfl
    rw [hmade] at hplan ⊢
    exact .of_ok rfl (.note hplan _)

/-- how a node without an operator is lowered, and what its plan is: an input node to its data, a reorganisation of one node
over the operator of that, and any other node is refused -/
theorem lower_fresh_cases (hg : g.Ordered) (hn : g.node? id = some n) (hnone : n.lowered = none) :
    (n.kind = .input ∧ lower id g = (do noteLowered id (.data (← freshNumber) n.name n.size n.position)) g ∧
      ∀ k, g.plan id = .ok (Operator.data k n.name n.size n.position).unnumbered) ∨
    (∃ op input, n.kind = .reorg op ∧ n.inputs = [input] ∧ input.index < id.index ∧
      lower id g = (lower input >>= fun a => lowerOver id n op a >>= noteLowered id) g ∧
      g.plan id = g.plan input >>= fun x => .ok (g.planOver n op x)) ∨
    ∃ fault, lower id g = .error (loweringError n fault) g ∧ g.plan id = .error (loweringError n fault) := by
  rw [lower, step_ok (node_ok hn), plan, hn]
  simp only [hnone]
  cases hkind : n.kind with
  | input => exact .inl ⟨rfl, rfl, fun _ => rfl⟩
  | reorg op =>
    rcases hinputs : n.inputs with _ | ⟨input, _ | ⟨second, rest⟩⟩
    · exact .inr (.inr ⟨.inputCount op 0, rfl, rfl⟩)
    · have hlt : input.index < id.index := hg hn input (by simp [hinputs])
      simp only [dif_pos hlt]
      refine .inr (.inl ⟨op, input, rfl, rfl, hlt, rfl, ?_⟩)
      cases g.plan input <;> rfl
    · exact .inr (.inr ⟨.inputCount op (input :: second :: rest).length, rfl, rfl⟩)

/-- **Lowering a node answers with its plan** and leaves the graph alike. -/
theorem lower_tells (hg : g.Ordered) (id : NodeId) : Tells Operator.unnumbered (lower id) g (g.plan id) := by
  induction hk : id.index using Nat.strong_induction_on generalizing id with
  | _ k ih =>
    cases hn : g.node? id with
    | none =>
      have hlower : lower id g = .error (.unknownNode id) g := by rw [lower, step_error (node_error hn)]
      rw [plan, hn]
      exact .of_error hlower (.refl g)
    | some n =>
      cases hlowered : n.lowered with
      | some o =>
        have hlower : lower id g = .ok o g := by
          rw [lower, step_ok (node_ok hn), hlowered]
          rfl
        rw [plan_noted hn hlowered]
        exact .of_ok hlower (.refl g)
      | none =>
        rcases lower_fresh_cases hg hn hlowered with ⟨-, hlower, hplan⟩ | ⟨op, input, -, -, hlt, hlower, hplan⟩ |
          ⟨fault, hlower, hplan⟩
        · rw [hplan g.nextOperator]
          exact .of_ok hlower (.note (hplan _) _)
        · -- first the input, which comes before the node
          have hfirst := ih input.index (hk ▸ hlt) input rfl
          rw [hplan]
          refine .of_eq hlower (hfirst.bind fun a g₁ hrun h₁ => ?_)
          -- the node is what it was, with the answer about its placement of before
          obtain ⟨n₁, hn₁, hsame, hplacing⟩ := node_of_same h₁.bare h₁.placing hn
          have hinput : g.plan input = .ok a.unnumbered := by
            rw [← hfirst.1, hrun]
            rfl
          rw [← planOver_congr hsame hplacing]
          refine lowerOver_tells (hg.of_alike h₁) hn₁ hsame.symm ?_
          rw [h₁.plan, hplan, hinput, planOver_congr hsame hplacing]
          rfl
        · rw [hplan]
          exact .of_error hlower (.refl g)

theorem lowers_tell (hg : g.Ordered) (ids : List NodeId) :
    Tells (List.map Operator.unnumbered) (ids.mapM lower) g (ids.mapM g.plan) := by
  induction ids generalizing g with
  | nil => exact .of_ok rfl (.refl g)
  | cons id ids ih =>
    rw [List.mapM_cons, List.mapM_cons]
    refine (lower_tells hg id).bind fun o g₁ _ h₁ => ?_
    have hrest := ih (hg.of_alike h₁)
    rw [funext h₁.plan] at hrest
    exact hrest.bind fun os g₂ _ _ => .of_ok rfl (.refl g₂)

theorem lowerAll_tells (hg : g.Ordered) :
    Tells (fun p => p.roots.map Operator.unnumbered) lowerAll g (g.sinks.mapM g.plan) := by
  have htells : Tells (fun p : Program => p.roots.map Operator.unnumbered)
      (g.sinks.mapM lower >>= fun roots => pure ⟨roots⟩) g (g.sinks.mapM g.plan >>= fun os => .ok os) :=
    (lowers_tell hg g.sinks).bind fun os g₁ _ _ => .of_ok rfl (.refl g₁)
  rw [show (g.sinks.mapM g.plan >>= fun os => .ok os) = g.sinks.mapM g.plan from bind_pure _] at htells
  exact .of_eq (lowerAll_eq g) htells

theorem place_tells (hg : g.Ordered) (id : NodeId) :
    Tells (fun p => p) (place id) g ((g.placing? id).elim (.error (.unknownNode id)) .ok) := by
  cases hn : g.node? id with
  | none =>
    rw [placing?, hn]
    exact .of_error (step_error (node_error hn)) (.refl g)
  | some n =>
    rw [placing?, hn]
    obtain ⟨g', hplace, hsettles⟩ := place_answers hn (inputsIn_of_earlier hn (hg hn))
    exact .of_ok hplace hsettles.alike

/-- a step that answers at a node of the graph, and fails at once without the node, leaves the graph alike -/
theorem alike_of_answers {m : GraphM β} (hnone : g.node? id = none → m g = .error (.unknownNode id) g)
    (hsome : ∀ n, g.node? id = some n → ∃ b, Answers m g b) : Alike g (ending (m g)) := by
  cases hn : g.node? id with
  | none =>
    rw [hnone hn]
    exact .refl g
  | some n =>
    obtain ⟨b, g', hm, hsettles⟩ := hsome n hn
    rw [hm]
    exact hsettles.alike

/-- **A query leaves a graph alike**, whether it succeeds or fails. -/
theorem after_alike (hg : g.Ordered) {q : GraphOp} (hq : q.isQuery = true) : Alike g (g.after q) := by
  unfold after
  cases q with
  | outputBytes id =>
    rw [GraphOp.perform, ending_map]
    exact alike_of_answers (fun hn => step_error (node_error hn)) fun n hn => ⟨_, outputBytes_answers hn⟩
  | memoryBytes id =>
    rw [GraphOp.perform, ending_map]
    exact alike_of_answers (fun hn => step_error (node_error hn)) fun n hn =>
      ⟨_, memoryBytes_answers hn (inputsIn_of_earlier hn (hg hn))⟩
  | place id =>
    rw [GraphOp.perform, ending_map]
    exact (place_tells hg id).2
  | lower id =>
    rw [GraphOp.perform, ending_map]
    exact (lower_tells hg id).2
  | lowerAll =>
    rw [GraphOp.perform, ending_map]
    exact (lowerAll_tells hg).2
  | _ => cases hq

theorem afterAll_alike (hg : g.Ordered) {qs : List GraphOp} (hqs : ∀ q ∈ qs, q.isQuery = true) :
    Alike g (g.afterAll qs) := by
  induction qs generalizing g with
  | nil => exact .refl g
  | cons q qs ih =>
    have hfirst := after_alike hg (hqs q List.mem_cons_self)
    exact hfirst.trans (ih (hg.of_alike hfirst) fun q' hq' => hqs q' (List.mem_cons_of_mem q hq'))

/-- what is written of the plan of a graph is the same for graphs that are alike, and so is the error if there is none -/
theorem Alike.written (h : Alike g g') (hg : g.Ordered) (write : List Json → β) :
    (outcome (lowerAll g')).map (fun p => write (Operator.toJsonAll p.roots)) =
      (outcome (lowerAll g)).map fun p => write (Operator.toJsonAll p.roots) := by
  have hwritten : ∀ g : Graph, g.Ordered → (outcome (lowerAll g)).map (fun p => write (Operator.toJsonAll p.roots)) =
      (g.sinks.mapM g.plan).map fun os => write (Operator.toJsonAll os) := by
    intro g hg
    rw [← (lowerAll_tells hg).1]
    cases outcome (lowerAll g) with
    | error e => rfl
    | ok p =>
      simp only [Except.map, ← Operator.unnumberedAll_eq_map, Operator.toJsonAll_unnumbered]
  rw [hwritten g' (hg.of_alike h), h.sinks, funext h.plan, ← hwritten g hg]

/-- **Queries commute.** In any graph that steps lead to, after any estimates, placements and lowerings of any nodes, failing
ones included, lowering the graph gives the same written plan, with the same fingerprint, or the same error, and placing a
node gives the same answer, as if none of them had been asked for. -/
theorem queries_commute {config : PlannerConfig} (hg : g.Reached config) {qs : List GraphOp}
    (hqs : ∀ q ∈ qs, q.isQuery = true) :
    (outcome (lowerAll (g.afterAll qs))).map Program.text = (outcome (lowerAll g)).map Program.text ∧
    (outcome (lowerAll (g.afterAll qs))).map Program.fingerprint = (outcome (lowerAll g)).map Program.fingerprint ∧
    ∀ id, outcome (place id (g.afterAll qs)) = outcome (place id g) := by
  have hordered : g.Ordered := hg.kept.earlier
  have halike := afterAll_alike hordered hqs
  have hplace : ∀ g : Graph, g.Ordered → ∀ id,
      outcome (place id g) = (g.placing? id).elim (.error (.unknownNode id)) .ok := by
    intro g hg id
    rw [← (place_tells hg id).1]
    cases outcome (place id g) <;> rfl
  refine ⟨?_, ?_, fun id => ?_⟩
  · exact halike.written hordered fun js => (Json.object [("roots", .array js)]).compact
  · exact halike.written hordered fun js => Digest.ofText (Json.array js).compact
  · rw [hplace _ (hordered.of_alike halike), hplace g hordered, halike.placing]

/-- a transpose placed while the shape of its input was unknown, and the shape stated afterwards -/
def staleSteps : List GraphOp :=
  [.addInput "X" (.unknown 1000), .addReorg .transpose [⟨0⟩] {}, .place ⟨1⟩, .resize ⟨0⟩ ⟨some 3, some 2, 1000, 1000, none⟩,
    .addReorg .diagToVector [⟨1⟩] {}]

def stale : Graph := (ofConfig { strategy := .heuristic }).afterAll staleSteps

/-- questions about nodes from the last to the first, two of them about nodes that are not there -/
def asked : List GraphOp := [.lower ⟨9⟩, .memoryBytes ⟨2⟩, .lower ⟨1⟩, .place ⟨7⟩, .lowerAll, .place ⟨1⟩]

/-- asked or not, the plan is written alike, and the transpose is local, although it is noted as distributed at first -/
theorem asked_stale : (∀ q ∈ asked, q.isQuery = true) ∧
    (outcome (lowerAll (stale.afterAll asked))).map Program.text = (outcome (lowerAll stale)).map Program.text ∧
    (stale.node? ⟨1⟩).bind (·.placement) = some .distributed ∧
    outcome (place ⟨1⟩ (stale.afterAll asked)) = .ok .local := by
  have hasked : ∀ q ∈ asked, q.isQuery = true := by decide
  obtain ⟨htext, -, hplace⟩ := queries_commute (g := stale) ⟨staleSteps, rfl⟩ hasked
  exact ⟨hasked, htext, rfl, (hplace ⟨1⟩).trans rfl⟩

end Graph

end MatrixEngine
