/-
Graphs that are built by adding nodes.

`Graph.Built` are the graphs that `addInput` and `addReorg` make of no nodes. In each of them a node carries its own
number, a reorganisation has one input that comes before it and the size that follows from the size of that input, and
an edge that is noted at its input is noted at its consumer as well (`Graph.Sound`, `Built.sound`). From each node
consumers lead to a node that nothing consumes (`Sound.induct_consumers`).
-/
import Mathlib.Tactic
import MatrixEngine.Plan.Graph
import MatrixEngine.Proofs.Sequence

namespace MatrixEngine.Graph

/-! ## Nodes by number -/

theorem node?_eq_some_lt {g : Graph} {id : NodeId} {n : Node} (h : g.node? id = some n) : id.index < g.nodes.size :=
  (Array.getElem?_eq_some_iff.1 h).1

theorem node?_size (g : Graph) : g.node? ⟨g.nodes.size⟩ = none := Array.getElem?_eq_none le_rfl

theorem node?_update (g : Graph) (id j : NodeId) (f : Node → Node) :
    (g.update id f).node? j = if id = j then (g.node? j).map f else g.node? j := by
  obtain ⟨i⟩ := id
  obtain ⟨j⟩ := j
  simp only [update, node?, Array.getElem?_modify, NodeId.mk.injEq]

/-- what a change of a node does not touch is the same at all nodes -/
theorem map_update {β : Type} (g : Graph) (id : NodeId) {f : Node → β} {h : Node → Node} (hf : ∀ n, f (h n) = f n) :
    (g.update id h).nodes.map f = g.nodes.map f := by
  refine Array.ext_getElem? fun i => ?_
  rw [Array.getElem?_map, Array.getElem?_map, update, Array.getElem?_modify]
  split_ifs
  · rw [Option.map_map, Function.comp_def]
    simp only [hf]
  · rfl

/-- what is read of a node apart from its size is the same at all nodes when the size of one is derived anew -/
theorem map_refreshed {β : Type} (g : Graph) (id : NodeId) {f : Node → β} (hf : ∀ n s, f { n with size := s } = f n) :
    (g.refreshed id).nodes.map f = g.nodes.map f := by
  unfold refreshed
  split
  · refine g.map_update id ?_
    exact fun n => hf n _
  · rfl

/-- where graphs have the same of all nodes, a node of one is a node of the other up to that -/
theorem node_of_map {β : Type} {f : Node → β} {g g' : Graph} {id : NodeId} {n : Node}
    (h : g'.nodes.map f = g.nodes.map f) (hn : g.node? id = some n) : ∃ n', g'.node? id = some n' ∧ f n' = f n := by
  have hmap : ∀ g : Graph, (g.nodes.map f)[id.index]? = (g.node? id).map f := fun _ => Array.getElem?_map
  have hid : (g'.node? id).map f = some (f n) := by
    rw [← hmap, h, hmap, hn, Option.map_some]
  exact Option.map_eq_some_iff.1 hid

theorem node?_push (g : Graph) (name : String) (kind : NodeKind) (size : SizeInfo) (inputs : List NodeId)
    (position : Position) (j : NodeId) :
    (g.push name kind size inputs position).node? j =
      if j = ⟨g.nodes.size⟩ then some { id := ⟨g.nodes.size⟩, name, kind, size, inputs, parents := [], position }
      else g.node? j := by
  obtain ⟨j⟩ := j
  simp only [push, node?, Array.getElem?_push, NodeId.mk.injEq]

theorem addParent_eq (id : NodeId) (n : Node) : ∃ ps, addParent id n = { n with parents := ps } ∧
    ∀ p, p ∈ ps ↔ p = id ∨ p ∈ n.parents := by
  unfold addParent
  split_ifs with h
  · refine ⟨n.parents, rfl, fun p => ⟨Or.inr, ?_⟩⟩
    rintro (rfl | hp)
    · simpa using h
    · exact hp
  · exact ⟨n.parents ++ [id], rfl, fun p => by simp [or_comm]⟩

/-! ## Steps -/

theorem node_ok {g : Graph} {id : NodeId} {n : Node} (h : g.node? id = some n) : node id g = .ok n g := by
  have hget : (get : GraphM Graph) g = .ok g g := rfl
  unfold node
  rw [step_ok hget, h]
  rfl

theorem node_error {g : Graph} {id : NodeId} (h : g.node? id = none) : node id g = .error (.unknownNode id) g := by
  have hget : (get : GraphM Graph) g = .ok g g := rfl
  unfold node
  rw [step_ok hget, h]
  rfl

/-! ## Adding nodes -/

theorem addInput_eq (g : Graph) (name : String) (size : SizeInfo) :
    addInput name size g = .ok ⟨g.nodes.size⟩ (g.push name .input size [] {}) := rfl

theorem check_eq (input : NodeId) :
    ([input].forM fun i => do let _ ← node i : GraphM Unit) =
      ((node input >>= fun _ => pure ()) >>= fun _ => pure () : GraphM Unit) := rfl

theorem addReorg_eq {g : Graph} {op : Reorg} {input : NodeId} {position : Position} {m : Node}
    (hm : g.node? input = some m) :
    addReorg op [input] position g = .ok ⟨g.nodes.size⟩
      (((g.push op.label (.reorg op) (.unknown g.config.blockSize) [input] position).update input
        (addParent ⟨g.nodes.size⟩)).refreshed ⟨g.nodes.size⟩) := by
  have hnode : (node input >>= fun _ => pure () : GraphM Unit) g = .ok () g := step_ok (node_ok hm)
  have hcheck : ((node input >>= fun _ => pure ()) >>= fun _ => pure () : GraphM Unit) g = .ok () g := step_ok hnode
  unfold addReorg
  rw [check_eq, step_ok hcheck]
  rfl

theorem addReorg_error {g : Graph} {op : Reorg} {input : NodeId} {position : Position} (hm : g.node? input = none) :
    addReorg op [input] position g = .error (.unknownNode input) g := by
  have hnode : (node input >>= fun _ => pure () : GraphM Unit) g = .error (.unknownNode input) g :=
    step_error (node_error hm)
  have hcheck : ((node input >>= fun _ => pure ()) >>= fun _ => pure () : GraphM Unit) g =
      .error (.unknownNode input) g := step_error hnode
  unfold addReorg
  rw [check_eq, step_error hcheck]

theorem node?_attached {g : Graph} {input : NodeId} {m : Node} (hm : g.node? input = some m) (name : String)
    (kind : NodeKind) (size : SizeInfo) (position : Position) (j : NodeId) :
    ((g.push name kind size [input] position).update input (addParent ⟨g.nodes.size⟩)).node? j =
      if j = ⟨g.nodes.size⟩ then
        some { id := ⟨g.nodes.size⟩, name, kind, size, inputs := [input], parents := [], position }
      else if j = input then some (addParent ⟨g.nodes.size⟩ m)
      else g.node? j := by
  have hne : input ≠ ⟨g.nodes.size⟩ := fun h => absurd (node?_eq_some_lt hm) (by simp [h])
  rw [node?_update, node?_push]
  by_cases hj : j = ⟨g.nodes.size⟩
  · rw [if_pos hj, if_pos hj, if_neg (hj ▸ hne)]
  · rw [if_neg hj, if_neg hj]
    by_cases hji : j = input
    · rw [if_pos hji, if_pos hji.symm, hji, hm, Option.map_some]
    · rw [if_neg hji, if_neg (Ne.symm hji)]

/-- what adding a reorganisation of one node changes: the new node comes last, with the size that follows from its
input, and the input notes it as a consumer -/
theorem addReorg_ok {g g' : Graph} {op : Reorg} {input id : NodeId} {position : Position}
    (h : addReorg op [input] position g = .ok id g') :
    ∃ m new ps, g.node? input = some m ∧ id = ⟨g.nodes.size⟩ ∧ g'.node? id = some new ∧
      g'.node? input = some { m with parents := ps } ∧ (∀ p, p ∈ ps ↔ p = id ∨ p ∈ m.parents) ∧
      (∀ j, j ≠ id → j ≠ input → g'.node? j = g.node? j) ∧
      new.id = id ∧ new.kind = .reorg op ∧ new.inputs = [input] ∧ new.parents = [] ∧ new.lowered = none ∧
      op.outputSize m.size = (new.size.rows, new.size.cols, new.size.nnz) := by
  cases hm : g.node? input with
  | none =>
    rw [addReorg_error hm] at h
    cases h
  | some m =>
    rw [addReorg_eq hm] at h
    obtain ⟨rfl, rfl⟩ := EStateM.Result.ok.inj h
    obtain ⟨ps, hparents, hmem⟩ := addParent_eq ⟨g.nodes.size⟩ m
    have hne : input ≠ ⟨g.nodes.size⟩ := fun h => absurd (node?_eq_some_lt hm) (by simp [h])
    have hnode := node?_attached hm op.label (.reorg op) (.unknown g.config.blockSize) position
    set g₁ := (g.push op.label (.reorg op) (.unknown g.config.blockSize) [input] position).update input
      (addParent ⟨g.nodes.size⟩)
    set new : Node := {
      id := ⟨g.nodes.size⟩, name := op.label, kind := .reorg op, size := .unknown g.config.blockSize,
      inputs := [input], parents := [], position } with hnew
    have hlast : g₁.node? ⟨g.nodes.size⟩ = some new := by rw [hnode, if_pos rfl]
    have hinput : g₁.node? input = some { m with parents := ps } := by rw [hnode, if_neg hne, if_pos rfl, hparents]
    have hsize : g₁.refreshedSize new = { new.size with
        rows := (op.outputSize m.size).1, cols := (op.outputSize m.size).2.1, nnz := (op.outputSize m.size).2.2 } := by
      simp only [refreshedSize, hnew, hinput]
    have hrefreshed : g₁.refreshed ⟨g.nodes.size⟩ =
        g₁.update ⟨g.nodes.size⟩ fun n => { n with size := g₁.refreshedSize new } := by
      rw [refreshed, hlast]
    rw [hrefreshed, hsize]
    refine ⟨m, { new with size := { new.size with
      rows := (op.outputSize m.size).1, cols := (op.outputSize m.size).2.1, nnz := (op.outputSize m.size).2.2 } },
      ps, rfl, rfl, ?_, ?_, hmem, ?_, rfl, rfl, rfl, rfl, rfl, rfl⟩
    · rw [node?_update, if_pos rfl, hlast]
      rfl
    · rw [node?_update, if_neg (Ne.symm hne), hinput]
    · intro j hj hji
      rw [node?_update, if_neg (Ne.symm hj), hnode, if_neg hj, if_neg hji]

/-! ## Graphs that are built -/

/-- the graphs that adding inputs and reorganisations of one node makes of no nodes -/
inductive Built (config : PlannerConfig) : Graph → Prop where
  | empty : Built config (ofConfig config)
  | input {g g' : Graph} {name : String} {size : SizeInfo} {id : NodeId} :
      Built config g → addInput name size g = .ok id g' → Built config g'
  | reorg {g g' : Graph} {op : Reorg} {input id : NodeId} {position : Position} :
      Built config g → addReorg op [input] position g = .ok id g' → Built config g'

/-- every node fits into its graph -/
structure Sound (g : Graph) : Prop where
  /-- a node carries its number -/
  id : ∀ {i n}, g.node? i = some n → n.id = i
  fresh : ∀ {i n}, g.node? i = some n → n.lowered = none
  /-- a reorganisation comes after its only input and has the size that follows from it -/
  reorg : ∀ {i n op}, g.node? i = some n → n.kind = .reorg op → ∃ input m, n.inputs = [input] ∧
    input.index < i.index ∧ g.node? input = some m ∧ op.outputSize m.size = (n.size.rows, n.size.cols, n.size.nnz)
  /-- what a node notes as its consumer consumes it -/
  consumer : ∀ {i n p}, g.node? i = some n → p ∈ n.parents →
    ∃ m op, g.node? p = some m ∧ m.kind = .reorg op ∧ m.inputs = [i]

theorem sound_ofConfig (config : PlannerConfig) : (ofConfig config).Sound := by
  have hnone : ∀ i, (ofConfig config).node? i = none := fun _ => rfl
  constructor <;> simp [hnone]

/-- the input of a reorganisation: it comes before, and the size follows from its size -/
theorem Sound.input {g : Graph} (hg : g.Sound) {i input : NodeId} {n : Node} {op : Reorg} (hn : g.node? i = some n)
    (hkind : n.kind = .reorg op) (hinputs : n.inputs = [input]) : input.index < i.index ∧
      ∃ m, g.node? input = some m ∧ op.outputSize m.size = (n.size.rows, n.size.cols, n.size.nnz) := by
  obtain ⟨input', m, hinputs', hlt, hm, hsize⟩ := hg.reorg hn hkind
  obtain rfl := List.singleton_inj.1 (hinputs.symm.trans hinputs')
  exact ⟨hlt, m, hm, hsize⟩

/-- a node joins that fits, and the others stay but for consumers: at most the new node joins those of its input -/
theorem Sound.extend {g g' : Graph} (hg : g.Sound) {id : NodeId} {new : Node}
    (hold : ∀ {j n}, g.node? j = some n → ∃ ps, g'.node? j = some { n with parents := ps })
    (hcases : ∀ {j n}, g'.node? j = some n → (j = id ∧ n = new) ∨
      ∃ n₀, g.node? j = some n₀ ∧ n = { n₀ with parents := n.parents } ∧
        ∀ p ∈ n.parents, p ∈ n₀.parents ∨ p = id ∧ ∃ op, new.kind = .reorg op ∧ new.inputs = [j])
    (hnew : g'.node? id = some new) (hid : new.id = id) (hfresh : new.lowered = none) (hparents : new.parents = [])
    (hreorg : ∀ op, new.kind = .reorg op → ∃ input m, new.inputs = [input] ∧ input.index < id.index ∧
      g'.node? input = some m ∧ op.outputSize m.size = (new.size.rows, new.size.cols, new.size.nnz)) : g'.Sound := by
  refine ⟨fun hj => ?_, fun hj => ?_, fun hj hop => ?_, fun {j n p} hj hp => ?_⟩
  · rcases hcases hj with ⟨rfl, rfl⟩ | ⟨n₀, hj, hn, -⟩
    · exact hid
    · rw [hn]
      exact (hg.id hj : n₀.id = _)
  · rcases hcases hj with ⟨rfl, rfl⟩ | ⟨n₀, hj, hn, -⟩
    · exact hfresh
    · rw [hn]
      exact (hg.fresh hj : n₀.lowered = none)
  · rcases hcases hj with ⟨rfl, rfl⟩ | ⟨n₀, hj, hn, -⟩
    · exact hreorg _ hop
    · rw [hn] at hop ⊢
      obtain ⟨input, m, hinputs, hlt, hm, hsize⟩ := hg.reorg hj hop
      obtain ⟨ps, hm'⟩ := hold hm
      exact ⟨input, _, hinputs, hlt, hm', hsize⟩
  · rcases hcases hj with ⟨rfl, rfl⟩ | ⟨n₀, hj, -, hfrom⟩
    · rw [hparents] at hp
      cases hp
    · rcases hfrom p hp with hp | ⟨rfl, op, hop, hinputs⟩
      · obtain ⟨m, op, hm, hop, hinputs⟩ := hg.consumer hj hp
        obtain ⟨ps, hm'⟩ := hold hm
        exact ⟨_, op, hm', hop, hinputs⟩
      · exact ⟨new, op, hnew, hop, hinputs⟩

theorem Sound.addInput {g g' : Graph} {name : String} {size : SizeInfo} {id : NodeId} (hg : g.Sound)
    (h : addInput name size g = .ok id g') : g'.Sound := by
  rw [addInput_eq] at h
  obtain ⟨rfl, rfl⟩ := EStateM.Result.ok.inj h
  have hnode := node?_push g name .input size [] {}
  refine hg.extend (fun {j n} hj => ⟨n.parents, ?_⟩) (fun {j n} hj => ?_) ((hnode _).trans (if_pos rfl)) rfl rfl rfl
    fun op hop => ?_
  · have hne : j ≠ ⟨g.nodes.size⟩ := fun h => absurd (node?_eq_some_lt hj) (by simp [h])
    rw [hnode, if_neg hne]
    exact hj
  · rw [hnode] at hj
    split_ifs at hj with h
    · exact Or.inl ⟨h, (Option.some.inj hj).symm⟩
    · exact Or.inr ⟨n, hj, rfl, fun p hp => Or.inl hp⟩
  · cases hop

theorem Sound.addReorg {g g' : Graph} {op : Reorg} {input id : NodeId} {position : Position} (hg : g.Sound)
    (h : addReorg op [input] position g = .ok id g') : g'.Sound := by
  obtain ⟨m, new, ps, hm, rfl, hnew, hinput, hps, hframe, hid, hkind, hinputs, hparents, hlowered, hsize⟩ :=
    addReorg_ok h
  refine hg.extend (fun {j n} hj => ?_) (fun {j n} hj => ?_) hnew hid hlowered hparents fun op' hop => ?_
  · have hne : j ≠ ⟨g.nodes.size⟩ := fun h => absurd (node?_eq_some_lt hj) (by simp [h])
    by_cases hji : j = input
    · subst hji
      obtain rfl := Option.some.inj (hm.symm.trans hj)
      exact ⟨ps, hinput⟩
    · exact ⟨n.parents, (hframe j hne hji).trans hj⟩
  · by_cases hne : j = ⟨g.nodes.size⟩
    · subst hne
      exact Or.inl ⟨rfl, Option.some.inj (hj.symm.trans hnew)⟩
    · by_cases hji : j = input
      · subst hji
        obtain rfl := Option.some.inj (hj.symm.trans hinput)
        refine Or.inr ⟨m, hm, rfl, fun p hp => ?_⟩
        rcases (hps p).1 hp with rfl | hp
        · exact Or.inr ⟨rfl, op, hkind, hinputs⟩
        · exact Or.inl hp
      · rw [hframe j hne hji] at hj
        exact Or.inr ⟨n, hj, rfl, fun p hp => Or.inl hp⟩
  · obtain rfl := NodeKind.reorg.inj (hkind.symm.trans hop)
    exact ⟨input, _, hinputs, node?_eq_some_lt hm, hinput, hsize⟩

/-- **In a graph that is built every node fits.** -/
theorem Built.sound {config : PlannerConfig} {g : Graph} (hg : g.Built config) : g.Sound := by
  induction hg with
  | empty => exact sound_ofConfig config
  | input _ h ih => exact ih.addInput h
  | reorg _ h ih => exact ih.addReorg h

/-! ## Sinks -/

theorem mem_sinks {g : Graph} (hg : ∀ {i n}, g.node? i = some n → n.id = i) {id : NodeId} :
    id ∈ g.sinks ↔ ∃ n, g.node? id = some n ∧ n.parents = [] := by
  rw [sinks, List.mem_map]
  constructor
  · rintro ⟨n, hn, rfl⟩
    obtain ⟨hmem, hparents⟩ := List.mem_filter.1 hn
    obtain ⟨i, hi⟩ := Array.mem_iff_getElem?.1 (Array.mem_toList_iff.1 hmem)
    have hid : n.id = ⟨i⟩ := hg (i := ⟨i⟩) hi
    exact ⟨n, hid ▸ hi, List.isEmpty_iff.1 hparents⟩
  · rintro ⟨n, hn, hparents⟩
    have hmem : n ∈ g.nodes.toList := Array.mem_toList_iff.2 (Array.mem_of_getElem? hn)
    exact ⟨n, List.mem_filter.2 ⟨hmem, List.isEmpty_iff.2 hparents⟩, hg hn⟩

theorem Sound.mem_sinks {g : Graph} (hg : g.Sound) {id : NodeId} :
    id ∈ g.sinks ↔ ∃ n, g.node? id = some n ∧ n.parents = [] := Graph.mem_sinks hg.id

/-- what holds of every sink, and of a node if it holds of one of its consumers, holds of every node, if consumers come
later -/
theorem induct_parents {g : Graph} (hlater : ∀ {i n p}, g.node? i = some n → p ∈ n.parents →
      ∃ m, g.node? p = some m ∧ i.index < p.index) {P : NodeId → Prop}
    (hsink : ∀ i n, g.node? i = some n → n.parents = [] → P i)
    (hparent : ∀ i n p, g.node? i = some n → p ∈ n.parents → P p → P i) : ∀ i n, g.node? i = some n → P i := by
  -- the induction is on the number of later nodes
  have hall : ∀ k i n, g.nodes.size - i.index = k → g.node? i = some n → P i := by
    intro k
    induction k using Nat.strong_induction_on with
    | _ k ih =>
      intro i n hk hi
      cases hparents : n.parents with
      | nil => exact hsink i n hi hparents
      | cons p ps =>
        have hp : p ∈ n.parents := hparents ▸ List.mem_cons_self
        obtain ⟨m, hm, hlt⟩ := hlater hi hp
        have hsize := node?_eq_some_lt hm
        exact hparent i n p hi hp (ih (g.nodes.size - p.index) (by omega) p m rfl hm)
  exact fun i n hi => hall _ i n rfl hi

/-- what holds of every sink, and of the input of every node of which it holds, holds of every node -/
theorem Sound.induct_consumers {g : Graph} (hg : g.Sound) {P : NodeId → Prop}
    (hsink : ∀ i n, g.node? i = some n → n.parents = [] → P i)
    (hinput : ∀ i p m op, g.node? p = some m → m.kind = .reorg op → m.inputs = [i] → P p → P i) :
    ∀ i n, g.node? i = some n → P i := by
  refine induct_parents (fun {i n p} hi hp => ?_) hsink fun i n p hi hp hP => ?_
  · obtain ⟨m, op, hm, hop, hinputs⟩ := hg.consumer hi hp
    exact ⟨m, hm, (hg.input hm hop hinputs).1⟩
  · obtain ⟨m, op, hm, hop, hinputs⟩ := hg.consumer hi hp
    exact hinput i p m op hm hop hinputs hP

end MatrixEngine.Graph
