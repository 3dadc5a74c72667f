/-
Graphs that steps lead to.

`Graph.Reached` are the graphs that any steps (`GraphOp`), failing ones included, lead to from no nodes. Every step ends
in changes (`after_changes`), so all of them are kept graphs (`Reached.kept`). Lowering a node notes its
operator if it succeeds and leaves nodes with larger numbers without one, on the way of which it notes operators of
earlier nodes only (`lower_notes`); a failing one may leave some of these behind.
-/
import MatrixEngine.Proofs.Plan.Kept

namespace MatrixEngine

/-- a node without what is derived of it: its place in the graph -/
def Node.edges (n : Node) : Node := { n.outline with lowered := none }

namespace Graph

variable {β γ : Type} {g g' g'' : Graph} {id i : NodeId} {n : Node} {o : Operator} {k : Nat}

/-- the graph after a step, whether it succeeds or fails -/
def after (g : Graph) (op : GraphOp) : Graph := ending (op.perform g)

/-- the graph after steps, whichever of them fail -/
def afterAll (g : Graph) (ops : List GraphOp) : Graph := ops.foldl after g

/-- the graphs that steps lead to from no nodes -/
def Reached (config : PlannerConfig) (g : Graph) : Prop := ∃ ops, g = (ofConfig config).afterAll ops

/-- a step that begins with a node ends as the rest does, and where it began if there is no such node -/
theorem ending_node {P : Graph → Prop} {f : Node → GraphM β} (hnone : g.node? id = none → P g)
    (hsome : ∀ n, g.node? id = some n → P (ending (f n g))) : P (ending ((node id >>= f) g)) := by
  cases hn : g.node? id with
  | none =>
    rw [step_error (node_error hn)]
    exact hnone hn
  | some n =>
    rw [step_ok (node_ok hn)]
    exact hsome n hn

theorem after_eq (op : GraphOp) {f : β → GraphAnswer} {m : GraphM β} {b : β} (hop : op.perform = f <$> m)
    (hm : m g = .ok b g') : g.after op = g' := by
  rw [after, hop, ending_map, hm, ending_ok]

theorem Kept.inputsIn (hg : g.Kept) (hn : g.node? i = some n) : g.InputsIn n :=
  inputsIn_of_earlier hn (hg.earlier hn)

/-! ## Steps that adjust -/

theorem outline_of_unplaced (h : g'.unplaced = g.unplaced) : g'.outline = g.outline := by
  have hout : ∀ g : Graph, g.outline = g.unplaced.outline := by
    intro g
    simp only [outline, unplaced, Array.map_map]
    rfl
  rw [hout, h, ← hout]

theorem operator?_of_outline (h : g'.outline = g.outline) (j : NodeId) : g'.operator? j = g.operator? j := by
  have hmap : ∀ g : Graph, g.operator? j = g.outline.operator? j := by
    intro g
    have hnode : g.outline.node? j = (g.node? j).map Node.outline := Array.getElem?_map
    rw [operator?, operator?, hnode]
    cases g.node? j <;> rfl
  rw [hmap g', h, ← hmap]

/-- a step that begins with a node adjusts if the rest does; if there is no such node it ends where it began -/
theorem outline_node {f : Node → GraphM β} (h : ∀ n, g.node? id = some n → (ending (f n g)).outline = g.outline) :
    (ending ((node id >>= f) g)).outline = g.outline :=
  ending_node (P := fun g' => g'.outline = g.outline) (fun _ => rfl) h

theorem outline_change (id : NodeId) {f : Node → Node} (hf : ∀ n, (f n).outline = n.outline) (g : Graph) :
    (ending (change id f g)).outline = g.outline := outline_node fun _ _ => outline_update id hf

theorem outline_refreshed (g : Graph) (id : NodeId) : (g.refreshed id).outline = g.outline := by
  unfold refreshed
  split
  · exact outline_update id fun _ => rfl
  · rfl

theorem outline_refreshAll (g : Graph) : (ending (refreshAll g)).outline = g.outline := by
  have hfold : ∀ (is : List Nat) (g : Graph), (is.foldl (fun g i => g.refreshed ⟨i⟩) g).outline = g.outline := by
    intro is
    induction is with
    | nil => exact fun _ => rfl
    | cons i is ih => exact fun g => (ih _).trans (outline_refreshed g ⟨i⟩)
  exact hfold _ g

theorem outline_configure (config : PlannerConfig) (g : Graph) : (ending (configure config g)).outline = g.outline := by
  change outline { g with config := config, nodes := g.nodes.map Node.forget } = g.outline
  simp only [outline, Array.map_map]
  rfl

/-- a step that is quiet at a node of the graph and fails at once without the node -/
theorem outline_quiet {m : GraphM β} (hnone : g.node? id = none → m g = .error (.unknownNode id) g)
    (hsome : ∀ n, g.node? id = some n → Quiet m g) : (ending (m g)).outline = g.outline := by
  cases hn : g.node? id with
  | none =>
    rw [hnone hn]
    rfl
  | some n =>
    obtain ⟨b, g', hm, hg'⟩ := hsome n hn
    rw [hm]
    exact outline_of_unplaced hg'

/-! ## Adding nodes -/

/-- the check of inputs ends where it began: it passes if all of them are there, and else names one that is not -/
theorem checks (inputs : List NodeId) (g : Graph) :
    ((inputs.forM fun i => do let _ ← node i : GraphM Unit) g = .ok () g ∧ ∀ i ∈ inputs, ∃ m, g.node? i = some m) ∨
      ∃ i ∈ inputs, g.node? i = none ∧
        (inputs.forM fun i => do let _ ← node i : GraphM Unit) g = .error (.unknownNode i) g := by
  induction inputs with
  | nil => exact .inl ⟨rfl, by simp⟩
  | cons i is ih =>
    have hcons : ((i :: is).forM fun i => do let _ ← node i : GraphM Unit) =
        ((node i >>= fun _ => pure ()) >>= fun _ => is.forM fun i => do let _ ← node i : GraphM Unit) := rfl
    cases hi : g.node? i with
    | none =>
      have hfail : (node i >>= fun _ => pure () : GraphM Unit) g = .error (.unknownNode i) g :=
        step_error (node_error hi)
      exact .inr ⟨i, List.mem_cons_self, hi, hcons ▸ step_error hfail⟩
    | some m =>
      have hpass : (node i >>= fun _ => pure () : GraphM Unit) g = .ok () g := step_ok (node_ok hi)
      rw [hcons, step_ok hpass]
      rcases ih with ⟨hrest, hin⟩ | ⟨j, hj, hnone, hrest⟩
      · refine .inl ⟨hrest, fun j hj => ?_⟩
        rcases List.mem_cons.1 hj with rfl | hj
        · exact ⟨m, hi⟩
        · exact hin j hj
      · exact .inr ⟨j, List.mem_cons_of_mem i hj, hnone, hrest⟩

/-- a reorganisation is attached to its inputs and sized, or an input is unknown and the graph stays as it is -/
theorem addReorg_cases (op : Reorg) (inputs : List NodeId) (position : Position) (g : Graph) :
    ((∀ i ∈ inputs, ∃ m, g.node? i = some m) ∧ addReorg op inputs position g = .ok ⟨g.nodes.size⟩
      ((g.attach op.label (.reorg op) (.unknown g.config.blockSize) inputs position).refreshed ⟨g.nodes.size⟩)) ∨
    ∃ i ∈ inputs, g.node? i = none ∧ addReorg op inputs position g = .error (.unknownNode i) g := by
  unfold addReorg
  rcases checks inputs g with ⟨hcheck, hin⟩ | ⟨i, hi, hnone, hcheck⟩
  · exact .inl ⟨hin, step_ok hcheck⟩
  · exact .inr ⟨i, hi, hnone, step_error hcheck⟩

theorem addReorg_changes (op : Reorg) (inputs : List NodeId) (position : Position) (g : Graph) :
    Changes g (ending (addReorg op inputs position g)) := by
  rcases addReorg_cases op inputs position g with ⟨hin, hok⟩ | ⟨i, -, -, herror⟩
  · rw [hok]
    have hattach : Change g (g.attach op.label (.reorg op) (.unknown g.config.blockSize) inputs position) :=
      .attach hin (by simp)
    exact (Relation.ReflTransGen.single hattach).tail (.adjust (outline_refreshed _ ⟨g.nodes.size⟩))
  · rw [herror]
    exact .refl

/-! ## More nodes -/

/-- the settings and all nodes are the same but for consumers, and more nodes may have joined -/
structure Extends (g g' : Graph) : Prop where
  config : g'.config = g.config
  node : ∀ {i n}, g.node? i = some n → ∃ ps, g'.node? i = some { n with parents := ps }

theorem attach_frame (g : Graph) (name : String) (kind : NodeKind) (size : SizeInfo) (inputs : List NodeId)
    (position : Position) : (g.attach name kind size inputs position).config = g.config ∧
      (g.attach name kind size inputs position).nodes.size = g.nodes.size + 1 := by
  have hfold : ∀ (is : List NodeId) (g' : Graph),
      (is.foldl (fun g' i => g'.update i (addParent ⟨g.nodes.size⟩)) g').config = g'.config ∧
      (is.foldl (fun g' i => g'.update i (addParent ⟨g.nodes.size⟩)) g').nodes.size = g'.nodes.size := by
    intro is
    induction is with
    | nil => exact fun _ => ⟨rfl, rfl⟩
    | cons i is ih =>
      intro g'
      obtain ⟨hconfig, hsize⟩ := ih (g'.update i (addParent ⟨g.nodes.size⟩))
      exact ⟨hconfig, hsize.trans Array.size_modify⟩
  obtain ⟨hconfig, hsize⟩ := hfold inputs (g.push name kind size inputs position)
  exact ⟨hconfig, hsize.trans (Array.size_push _)⟩

theorem refreshed_frame (g : Graph) (id : NodeId) :
    (g.refreshed id).config = g.config ∧ (g.refreshed id).nodes.size = g.nodes.size := by
  unfold refreshed
  split
  · exact ⟨rfl, Array.size_modify⟩
  · exact ⟨rfl, rfl⟩

theorem addReorg_extends {op : Reorg} {input : NodeId} {position : Position}
    (h : addReorg op [input] position g = .ok id g') : Extends g g' ∧ g'.nodes.size = g.nodes.size + 1 := by
  obtain ⟨m, new, ps, hm, rfl, -, hinput, -, hothers, -⟩ := addReorg_ok h
  rw [addReorg_eq hm] at h
  obtain ⟨-, rfl⟩ := EStateM.Result.ok.inj h
  obtain ⟨hconfig, hsize⟩ := attach_frame g op.label (.reorg op) (.unknown g.config.blockSize) [input] position
  refine ⟨⟨(refreshed_frame _ _).1.trans hconfig, fun {i n} hn => ?_⟩, (refreshed_frame _ _).2.trans hsize⟩
  by_cases hi : i = input
  · subst hi
    obtain rfl := Option.some.inj (hm.symm.trans hn)
    exact ⟨ps, hinput⟩
  · have hne : i ≠ ⟨g.nodes.size⟩ := fun h => absurd (node?_eq_some_lt hn) (by simp [h])
    exact ⟨n.parents, (hothers i hne hi).trans hn⟩

theorem addInput_extends (g : Graph) (name : String) (size : SizeInfo) :
    Extends g (g.push name .input size [] {}) ∧ (g.push name .input size [] {}).nodes.size = g.nodes.size + 1 := by
  refine ⟨⟨rfl, fun {i n} hn => ⟨n.parents, ?_⟩⟩, Array.size_push _⟩
  have hne : i ≠ ⟨g.nodes.size⟩ := fun h => absurd (node?_eq_some_lt hn) (by simp [h])
  rw [node?_push, if_neg hne]
  exact hn

theorem Extends.update (h : Extends g g') (hnew : g.node? id = none) (f : Node → Node) : Extends g (g'.update id f) := by
  refine ⟨h.config, fun {i n} hn => ?_⟩
  have hne : id ≠ i := by
    rintro rfl
    rw [hnew] at hn
    cases hn
  rw [node?_update, if_neg hne]
  exact h.node hn

/-! ## Lowering -/

/-- changes that only derive and note, at nodes of number `k` or less -/
structure LowersTo (k : Nat) (g g' : Graph) : Prop where
  changes : Changes g g'
  later : ∀ j : NodeId, k < j.index → g'.operator? j = g.operator? j
  edges : g'.nodes.map Node.edges = g.nodes.map Node.edges

namespace LowersTo

theorem refl (k : Nat) (g : Graph) : LowersTo k g g := ⟨.refl, fun _ _ => rfl, rfl⟩

theorem trans (h : LowersTo k g g') (h' : LowersTo k g' g'') : LowersTo k g g'' :=
  ⟨h.changes.trans h'.changes, fun j hj => (h'.later j hj).trans (h.later j hj), h'.edges.trans h.edges⟩

theorem mono {k' : Nat} (h : LowersTo k g g') (hk : k ≤ k') : LowersTo k' g g' :=
  ⟨h.changes, fun j hj => h.later j (hk.trans_lt hj), h.edges⟩

theorem adjust (h : g'.outline = g.outline) : LowersTo k g g' := by
  refine ⟨.single (.adjust h), fun j _ => operator?_of_outline h j, ?_⟩
  have hmap : ∀ g : Graph, g.nodes.map Node.edges = g.outline.nodes.map Node.edges := by
    intro g
    rw [outline, Array.map_map]
    rfl
  rw [hmap g', h, ← hmap]

theorem note (hn : g.node? id = some n) (hnone : n.lowered = none) (ho : g.MadeFor g.nextOperator n o) :
    LowersTo id.index g (g.note id o) := by
  have hedges : ∀ n : Node, { n with lowered := some o }.edges = n.edges := fun _ => rfl
  refine ⟨.single (.note hn hnone ho), fun j hj => ?_, g.map_update id hedges⟩
  have hne : id ≠ j := by
    rintro rfl
    exact lt_irrefl _ hj
  rw [operator?, node?_note, if_neg hne]
  rfl

theorem bind {m : GraphM β} {f : β → GraphM γ} (hm : LowersTo k g (ending (m g)))
    (hf : ∀ b g', m g = .ok b g' → LowersTo k g g' → LowersTo k g' (ending (f b g'))) :
    LowersTo k g (ending ((m >>= f) g)) := ending_bind (R := LowersTo k) trans hm hf

theorem sinks (h : LowersTo k g g') : g'.sinks = g.sinks := by
  have hsinks : ∀ g : Graph,
      g.sinks = ((g.nodes.map Node.edges).toList.filter (·.parents.isEmpty)).map (·.id) := by
    intro g
    rw [Graph.sinks, Array.toList_map, List.filter_map, List.map_map]
    rfl
  rw [hsinks g', h.edges, ← hsinks]

end LowersTo

/-- a step that lowers up to a node and, if it succeeds, leaves its result noted there -/
def Notes (id : NodeId) (m : GraphM Operator) (g : Graph) : Prop :=
  LowersTo id.index g (ending (m g)) ∧ ∀ o g', m g = .ok o g' → g'.operator? id = some o

theorem Notes.of_ok {m : GraphM Operator} (hm : m g = .ok o g') (h : LowersTo id.index g g')
    (ho : g'.operator? id = some o) : Notes id m g := by
  refine ⟨hm ▸ h, fun o' g'' hm' => ?_⟩
  obtain ⟨rfl, rfl⟩ := EStateM.Result.ok.inj (hm.symm.trans hm')
  exact ho

theorem Notes.of_error {m : GraphM Operator} {e : PlanError} (hm : m g = .error e g') (h : LowersTo id.index g g') :
    Notes id m g := by
  refine ⟨hm ▸ h, fun o' g'' hm' => ?_⟩
  rw [hm] at hm'
  cases hm'

/-- a step that lowers up to the node, and then one that leaves its result noted there -/
theorem Notes.bind {m : GraphM β} {f : β → GraphM Operator} (hm : LowersTo id.index g (ending (m g)))
    (hf : ∀ b g', m g = .ok b g' → LowersTo id.index g g' → Notes id (f b) g') : Notes id (m >>= f) g := by
  refine ⟨hm.bind fun b g' hrun h => (hf b g' hrun h).1, fun o g'' hrun => ?_⟩
  obtain ⟨b, g', hfirst, hrest⟩ := step_ok_cases hrun
  rw [hfirst, ending_ok] at hm
  exact (hf b g' hfirst hm).2 o g'' hrest

theorem operator?_note (hn : g.node? id = some n) (o : Operator) : (g.note id o).operator? id = some o := by
  rw [operator?, node?_note, if_pos rfl, hn]
  rfl

theorem lowerOver_notes (hg : g.Kept) {op : Reorg} {input : NodeId} {a : Operator} (hn : g.node? id = some n)
    (hnone : n.lowered = none) (hkind : n.kind = .reorg op) (hinputs : n.inputs = [input])
    (ha : g.operator? input = some a) (n₀ : Node) : Notes id (lowerOver id n₀ op a >>= noteLowered id) g := by
  have hdirect : op ≠ .diagToVector → Notes id ((do
      let p ← place id
      return .transform (← freshNumber) a op p n₀.size n₀.position) >>= noteLowered id) g := by
    intro hop
    obtain ⟨p, g₁, hplace, hquiet⟩ := place_quiet hn (hg.inputsIn hn)
    have hadjust : LowersTo id.index g g₁ := .adjust (outline_of_unplaced hquiet)
    obtain ⟨n₁, hn₁, hout⟩ := node_of_outline (outline_of_unplaced hquiet) hn
    obtain ⟨-, hkind₁, hinputs₁, -, hlowered₁⟩ := Node.of_outline hout
    have hmade : g₁.MadeFor g₁.nextOperator n₁ (.transform g₁.nextOperator a op p n₀.size n₀.position) :=
      .reorg (hkind₁.trans hkind) (hinputs₁.trans hinputs) (hadjust.changes.operator? ha) (.direct hop)
    have hstep : (place id >>= fun p => do
        return .transform (← freshNumber) a op p n₀.size n₀.position : GraphM Operator) g =
        .ok (.transform g₁.nextOperator a op p n₀.size n₀.position)
          { g₁ with nextOperator := g₁.nextOperator + 1 } := by
      rw [step_ok hplace]
      rfl
    exact .of_ok (step_ok hstep) (hadjust.trans (.note hn₁ (hlowered₁.trans hnone) hmade)) (operator?_note hn₁ _)
  cases op with
  | transpose => exact hdirect (by simp)
  | diagToMatrix => exact hdirect (by simp)
  | diagToVector =>
    have hmade : ∀ output position, g.MadeFor g.nextOperator n ⟨g.nextOperator + 2, .aggregate .sum, .distributed,
        output, some .none, position, [.group (g.nextOperator + 1) ⟨g.nextOperator,
          .partialAggregate .diagToVector .col, .distributed, output, some (.ofPartial .diagToVector .col), position,
          [a]⟩ .distributed output position]⟩ := fun _ _ => .reorg hkind hinputs ha .chain
    exact .of_ok rfl (.note hn hnone (hmade n₀.size n₀.position)) (operator?_note hn _)

/-- **Lowering a node** notes operators at it and at earlier nodes only, and its result at the node. -/
theorem lower_notes (id : NodeId) (hg : g.Kept) : Notes id (lower id) g := by
  induction hk : id.index using Nat.strong_induction_on generalizing id g with
  | _ k ih =>
    cases hn : g.node? id with
    | none =>
      have hlower : lower id g = .error (.unknownNode id) g := by rw [lower, step_error (node_error hn)]
      exact .of_error hlower (.refl _ g)
    | some n =>
      unfold Notes
      rw [lower, step_ok (node_ok hn)]
      cases hlowered : n.lowered with
      | some o =>
        exact Notes.of_ok (m := pure o) rfl (.refl _ g) (operator?_eq_some_iff.2 ⟨n, hn, hlowered⟩)
      | none =>
        cases hkind : n.kind with
        | input =>
          have hmade : g.MadeFor g.nextOperator n (.data g.nextOperator n.name n.size n.position) := .data hkind
          exact Notes.of_ok rfl (.note hn hlowered hmade) (operator?_note hn _)
        | reorg op =>
          rcases hinputs : n.inputs with _ | ⟨input, _ | ⟨_, _⟩⟩
          · exact Notes.of_error rfl (.refl _ g)
          · -- first the input, which comes before the node
            have hlt : input.index < id.index := hg.earlier hn input (by simp [hinputs])
            simp only [dif_pos hlt]
            obtain ⟨hfirst, hnoted⟩ := ih input.index (hk ▸ hlt) input hg rfl
            refine Notes.bind (hfirst.mono hlt.le) fun a g₁ hlower h₁ => ?_
            rw [hlower, ending_ok] at hfirst
            -- the node itself is as it was, since it comes after its input
            obtain ⟨n₁, hn₁, hkind₁, hinputs₁, -⟩ := h₁.changes.keeps hn
            have hnone₁ : n₁.lowered = none := by
              have hsame := hfirst.later id hlt
              rw [operator?, hn₁, operator?, hn] at hsame
              exact hsame.trans hlowered
            exact lowerOver_notes (h₁.changes.kept hg) hn₁ hnone₁ (hkind₁.trans hkind) (hinputs₁.trans hinputs)
              (hnoted a g₁ hlower) n
          · exact Notes.of_error rfl (.refl _ g)

theorem lowers_note {ids : List NodeId} (hk : ∀ id ∈ ids, id.index ≤ k) (hg : g.Kept) :
    LowersTo k g (ending (ids.mapM lower g)) ∧
      ∀ os g', ids.mapM lower g = .ok os g' → List.Forall₂ (fun id o => g'.operator? id = some o) ids os := by
  induction ids generalizing g with
  | nil =>
    refine ⟨.refl k g, fun os g' h => ?_⟩
    obtain ⟨rfl, -⟩ := EStateM.Result.ok.inj h
    exact .nil
  | cons id ids ih =>
    obtain ⟨hfirst, hnoted⟩ := lower_notes id hg
    have hrest : ∀ {g₁}, LowersTo k g g₁ → _ := fun {g₁} h₁ =>
      ih (fun i hi => hk i (List.mem_cons_of_mem id hi)) (h₁.changes.kept hg)
    rw [List.mapM_cons]
    refine ⟨?_, fun os g' h => ?_⟩
    · exact (hfirst.mono (hk id List.mem_cons_self)).bind fun o g₁ _ h₁ => (hrest h₁).1.bind fun os g₂ _ _ => .refl k g₂
    · obtain ⟨o, g₁, hlower, h⟩ := step_ok_cases h
      obtain ⟨os', g₂, hlowers, h⟩ := step_ok_cases h
      obtain ⟨rfl, rfl⟩ := EStateM.Result.ok.inj h
      rw [hlower, ending_ok] at hfirst
      obtain ⟨h₂, hall⟩ := hrest (hfirst.mono (hk id List.mem_cons_self))
      rw [hlowers, ending_ok] at h₂
      exact .cons (h₂.changes.operator? (hnoted o g₁ hlower)) (hall os' g₂ hlowers)

theorem lowerAll_eq (g : Graph) :
    lowerAll g = (g.sinks.mapM lower >>= fun roots => pure ⟨roots⟩ : GraphM Program) g := rfl

/-- lowering all sinks derives and notes, and its roots are noted at the sinks -/
theorem lowerAll_notes (hg : g.Kept) : LowersTo g.nodes.size g (ending (lowerAll g)) ∧
    ∀ p g', lowerAll g = .ok p g' → List.Forall₂ (fun id o => g'.operator? id = some o) g.sinks p.roots := by
  have hsinks : ∀ id ∈ g.sinks, id.index ≤ g.nodes.size := by
    intro id hid
    obtain ⟨n, hn, -⟩ := (mem_sinks hg.id).1 hid
    exact (node?_eq_some_lt hn).le
  obtain ⟨hlowers, hall⟩ := lowers_note hsinks hg
  rw [lowerAll_eq]
  refine ⟨hlowers.bind fun os g' _ _ => .refl _ g', fun p g' h => ?_⟩
  obtain ⟨os, g₁, hrun, h⟩ := step_ok_cases h
  obtain ⟨rfl, rfl⟩ := EStateM.Result.ok.inj h
  exact hall os g₁ hrun

/-! ## All steps -/

/-- **Every step ends in changes**, whether it succeeds or fails. -/
theorem after_changes (hg : g.Kept) (op : GraphOp) : Changes g (g.after op) := by
  have hadjust : ∀ {β : Type} (f : β → GraphAnswer) (m : GraphM β), (ending (m g)).outline = g.outline →
      Changes g (ending ((f <$> m) g)) := by
    intro β f m h
    rw [ending_map]
    exact .single (.adjust h)
  unfold after
  cases op with
  | addInput name size =>
    have hattach : Change g (g.attach name .input size [] {}) := .attach (by simp) fun _ => rfl
    exact .single hattach
  | addReorg op inputs position =>
    rw [GraphOp.perform, ending_map]
    exact addReorg_changes op inputs position g
  | rename id name =>
    refine hadjust _ _ (outline_change id ?_ g)
    exact fun _ => rfl
  | resize id size =>
    refine hadjust _ _ (outline_change id ?_ g)
    exact fun _ => rfl
  | force id p =>
    refine hadjust _ _ (outline_change id ?_ g)
    exact fun _ => rfl
  | invalidate id =>
    refine hadjust _ _ (outline_change id ?_ g)
    exact fun _ => rfl
  | refresh id => exact hadjust _ _ (outline_node fun _ _ => outline_refreshed g id)
  | refreshAll => exact hadjust _ _ (outline_refreshAll g)
  | configure config => exact hadjust _ _ (outline_configure config g)
  | outputBytes id =>
    exact hadjust _ _ (outline_quiet (fun hn => step_error (node_error hn)) fun n hn => outputBytes_quiet hn)
  | memoryBytes id =>
    exact hadjust _ _ (outline_quiet (fun hn => step_error (node_error hn)) fun n hn =>
      memoryBytes_quiet hn (hg.inputsIn hn))
  | place id =>
    exact hadjust _ _ (outline_quiet (fun hn => step_error (node_error hn)) fun n hn =>
      place_quiet hn (hg.inputsIn hn))
  | lower id =>
    rw [GraphOp.perform, ending_map]
    exact (lower_notes id hg).1.changes
  | lowerAll =>
    rw [GraphOp.perform, ending_map]
    exact (lowerAll_notes hg).1.changes

theorem afterAll_concat (g : Graph) (ops : List GraphOp) (op : GraphOp) :
    g.afterAll (ops ++ [op]) = (g.afterAll ops).after op := List.foldl_concat ..

theorem afterAll_append (g : Graph) (before later : List GraphOp) :
    g.afterAll (before ++ later) = (g.afterAll before).afterAll later := List.foldl_append

theorem Reached.after {config : PlannerConfig} (hg : g.Reached config) (op : GraphOp) : (g.after op).Reached config := by
  obtain ⟨ops, rfl⟩ := hg
  exact ⟨ops ++ [op], (afterAll_concat _ ops op).symm⟩

theorem Built.reached {config : PlannerConfig} (hg : g.Built config) : g.Reached config := by
  induction hg with
  | empty => exact ⟨[], rfl⟩
  | @input g g' name size id _ hadd ih =>
    have hstep : g.after (.addInput name size) = g' := after_eq _ rfl hadd
    exact hstep ▸ ih.after _
  | @reorg g g' op input id position _ hadd ih =>
    have hstep : g.after (.addReorg op [input] position) = g' := after_eq _ rfl hadd
    exact hstep ▸ ih.after _

theorem afterAll_changes (hg : g.Kept) (ops : List GraphOp) : Changes g (g.afterAll ops) := by
  induction ops generalizing g with
  | nil => exact .refl
  | cons op ops ih =>
    have hfirst := after_changes hg op
    exact hfirst.trans (ih (hfirst.kept hg))

theorem Kept.after (hg : g.Kept) (op : GraphOp) : (g.after op).Kept := (after_changes hg op).kept hg

theorem Kept.afterAll (hg : g.Kept) (ops : List GraphOp) : (g.afterAll ops).Kept := (afterAll_changes hg ops).kept hg

/-- **Every graph that steps lead to is kept.** -/
theorem Reached.kept {config : PlannerConfig} (hg : g.Reached config) : g.Kept := by
  obtain ⟨ops, rfl⟩ := hg
  exact (kept_ofConfig config).afterAll ops

end Graph

end MatrixEngine
