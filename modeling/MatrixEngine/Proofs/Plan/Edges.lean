/-
Edges, which are kept at both ends.

A consumer lists its inputs and each of them notes the consumer. In every graph that changes lead to the two lists tell the
same edges, and what a node notes ascends, however often a consumer lists it (`Graph.Linked`, with a lemma for each kind
of change). Hence edges lead from earlier nodes to later ones, the sinks are the nodes that no node consumes, and a
reorganisation of an unknown node leaves no trace (`edges_kept`).
-/
import MatrixEngine.Proofs.Plan.Complete

namespace MatrixEngine.Graph

variable {g g' : Graph} {id i : NodeId} {n : Node} {o : Operator}

/-- what the inputs of a node note of it -/
structure Linked (g : Graph) : Prop where
  /-- an input notes its consumer -/
  noted : ∀ {i n x}, g.node? i = some n → x ∈ n.inputs → ∃ m, g.node? x = some m ∧ i ∈ m.parents
  ascending : ∀ {i n}, g.node? i = some n → n.parents.Pairwise fun p q => p.index < q.index

theorem linked_ofConfig (config : PlannerConfig) : (ofConfig config).Linked := by
  have hnone : ∀ i, (ofConfig config).node? i = none := fun _ => rfl
  constructor <;> simp [hnone]

/-! ## One change -/

theorem Linked.adjust (hg : g.Linked) (h : g'.outline = g.outline) : g'.Linked := by
  have hback : ∀ {i n'}, g'.node? i = some n' → ∃ n, g.node? i = some n ∧ n'.inputs = n.inputs ∧
      n'.parents = n.parents := by
    intro i n' hn'
    obtain ⟨n, hn, hout⟩ := node_of_outline h.symm hn'
    obtain ⟨-, -, hinputs, hparents, -⟩ := Node.of_outline hout
    exact ⟨n, hn, hinputs.symm, hparents.symm⟩
  refine ⟨?_, ?_⟩
  · intro i n' x hn' hx
    obtain ⟨n, hn, hinputs, -⟩ := hback hn'
    obtain ⟨m, hm, hi⟩ := hg.noted hn (hinputs ▸ hx)
    obtain ⟨m', hm', hout⟩ := node_of_outline h hm
    obtain ⟨-, -, -, hparents, -⟩ := Node.of_outline hout
    exact ⟨m', hm', hparents ▸ hi⟩
  · intro i n' hn'
    obtain ⟨n, hn, -, hparents⟩ := hback hn'
    rw [hparents]
    exact hg.ascending hn

theorem addParent_ascending (h : n.parents.Pairwise fun p q => p.index < q.index)
    (hlater : ∀ p ∈ n.parents, p.index < id.index) :
    (addParent id n).parents.Pairwise fun p q => p.index < q.index := by
  unfold addParent
  split_ifs
  · exact h
  · refine List.pairwise_append.2 ⟨h, List.pairwise_singleton _ _, ?_⟩
    intro p hp q hq
    rw [List.mem_singleton.1 hq]
    exact hlater p hp

theorem Linked.attach (hg : g.Linked) (hkept : g.Kept) {inputs : List NodeId}
    (hin : ∀ i ∈ inputs, ∃ m, g.node? i = some m) (name : String) (kind : NodeKind) (size : SizeInfo)
    (position : Position) : (g.attach name kind size inputs position).Linked := by
  have hnode := node?_attach hin name kind size position
  -- an old node keeps what it notes, and notes the new one if it is one of its inputs
  have hold : ∀ {x m}, g.node? x = some m → ∃ m', (g.attach name kind size inputs position).node? x = some m' ∧
      (∀ p ∈ m.parents, p ∈ m'.parents) ∧ (x ∈ inputs → ⟨g.nodes.size⟩ ∈ m'.parents) := by
    intro x m hm
    have hne : x ≠ ⟨g.nodes.size⟩ := fun h => absurd (node?_eq_some_lt hm) (by simp [h])
    rw [hnode, if_neg hne, hm]
    obtain ⟨ps, hparents, hps⟩ := addParent_eq ⟨g.nodes.size⟩ m
    split_ifs with hx
    · refine ⟨_, rfl, ?_, ?_⟩ <;> rw [hparents]
      · exact fun p hp => (hps p).2 (.inr hp)
      · exact fun _ => (hps _).2 (.inl rfl)
    · exact ⟨m, rfl, fun _ hp => hp, fun h => absurd h hx⟩
  refine ⟨?_, ?_⟩
  · intro i n' x hn' hx
    rcases node_of_attach hin hn' with ⟨rfl, rfl⟩ | ⟨n, hn, -, -, hinputs, -, -⟩
    · obtain ⟨m, hm⟩ := hin x hx
      obtain ⟨m', hm', -, hnew⟩ := hold hm
      exact ⟨m', hm', hnew hx⟩
    · obtain ⟨m, hm, hi⟩ := hg.noted hn (hinputs ▸ hx)
      obtain ⟨m', hm', hkeeps, -⟩ := hold hm
      exact ⟨m', hm', hkeeps i hi⟩
  · intro i n' hn'
    rw [hnode] at hn'
    split_ifs at hn' with hnew hmem
    · obtain rfl := Option.some.inj hn'
      exact .nil
    · obtain ⟨n, hn, rfl⟩ := Option.map_eq_some_iff.1 hn'
      refine addParent_ascending (hg.ascending hn) ?_
      intro p hp
      obtain ⟨m, hm, -⟩ := hkept.consumer hn hp
      exact node?_eq_some_lt hm
    · exact hg.ascending hn'

theorem Linked.note (hg : g.Linked) (id : NodeId) (o : Operator) : (g.note id o).Linked := by
  refine ⟨?_, ?_⟩
  · intro i n' x hn' hx
    obtain ⟨n, hn, -, -, hinputs, -⟩ := node_of_note hn'
    obtain ⟨m, hm, hi⟩ := hg.noted hn (hinputs ▸ hx)
    rw [node?_note, hm]
    split_ifs
    · exact ⟨_, rfl, hi⟩
    · exact ⟨m, rfl, hi⟩
  · intro i n' hn'
    obtain ⟨n, hn, -, -, -, hparents, -⟩ := node_of_note hn'
    rw [hparents]
    exact hg.ascending hn

/-- **A change keeps the two ends of all edges in step.** -/
theorem Change.linked (h : Change g g') (hkept : g.Kept) (hg : g.Linked) : g'.Linked := by
  cases h with
  | adjust hsame => exact hg.adjust hsame
  | attach hin _ => exact hg.attach hkept hin _ _ _ _
  | note _ _ _ => exact hg.note _ _

theorem Changes.linked (h : Changes g g') (hkept : g.Kept) (hg : g.Linked) : g'.Linked := by
  induction h with
  | refl => exact hg
  | tail hfirst hlast ih => exact hlast.linked (Changes.kept hfirst hkept) ih

theorem Reached.linked {config : PlannerConfig} (hg : g.Reached config) : g.Linked := by
  obtain ⟨ops, rfl⟩ := hg
  have hkept := kept_ofConfig config
  exact (afterAll_changes hkept ops).linked hkept (linked_ofConfig config)

/-! ## What follows -/

/-- **The two lists of edges agree.** -/
theorem Linked.parents_iff_inputs (hg : g.Linked) (hkept : g.Kept) (x p : NodeId) :
    (∃ n, g.node? x = some n ∧ p ∈ n.parents) ↔ ∃ m, g.node? p = some m ∧ x ∈ m.inputs := by
  constructor
  · rintro ⟨n, hn, hp⟩
    exact hkept.consumer hn hp
  · rintro ⟨m, hm, hx⟩
    exact hg.noted hm hx

theorem Linked.mem_sinks (hg : g.Linked) (hkept : g.Kept) (x : NodeId) :
    x ∈ g.sinks ↔ (∃ n, g.node? x = some n) ∧ ∀ p m, g.node? p = some m → x ∉ m.inputs := by
  rw [Graph.mem_sinks hkept.id]
  constructor
  · rintro ⟨n, hn, hparents⟩
    refine ⟨⟨n, hn⟩, ?_⟩
    intro p m hm hx
    obtain ⟨n', hn', hp⟩ := hg.noted hm hx
    obtain rfl := Option.some.inj (hn.symm.trans hn')
    rw [hparents] at hp
    cases hp
  · rintro ⟨⟨n, hn⟩, hfree⟩
    refine ⟨n, hn, List.eq_nil_iff_forall_not_mem.2 ?_⟩
    intro p hp
    obtain ⟨m, hm, hx⟩ := hkept.consumer hn hp
    exact hfree p m hm hx

/-- walks along inputs end, since they lead to smaller numbers -/
theorem Kept.wellFounded_inputs (hg : g.Kept) : WellFounded fun x p => ∃ m, g.node? p = some m ∧ x ∈ m.inputs := by
  refine Subrelation.wf ?_ (InvImage.wf NodeId.index Nat.lt_wfRel.wf)
  rintro x p ⟨m, hm, hx⟩
  exact hg.earlier hm x hx

/-- **The edges of a graph are sound at both ends**, in every graph that any steps lead to, failing ones included:
- a node carries its number, and its inputs have smaller ones, so that walks along inputs end;
- a node notes as its consumers just the nodes that list it as an input, each once and in ascending order;
- the sinks are, in ascending order, the nodes that are an input of no node;
- a reorganisation of nodes of which one is unknown fails at such a node, and the graph is the one of before. -/
theorem edges_kept {config : PlannerConfig} (hg : g.Reached config) :
    (∀ i n, g.node? i = some n → n.id = i) ∧
    (∀ i n, g.node? i = some n → ∀ x ∈ n.inputs, x.index < i.index) ∧
    (WellFounded fun x p => ∃ m, g.node? p = some m ∧ x ∈ m.inputs) ∧
    (∀ x p, (∃ n, g.node? x = some n ∧ p ∈ n.parents) ↔ ∃ m, g.node? p = some m ∧ x ∈ m.inputs) ∧
    (∀ x n, g.node? x = some n → n.parents.Pairwise fun p q => p.index < q.index) ∧
    g.sinks.Pairwise (fun x y => x.index < y.index) ∧
    (∀ x, x ∈ g.sinks ↔ (∃ n, g.node? x = some n) ∧ ∀ p m, g.node? p = some m → x ∉ m.inputs) ∧
    ∀ op inputs position, (∃ x ∈ inputs, g.node? x = none) →
      ∃ x ∈ inputs, g.node? x = none ∧ addReorg op inputs position g = .error (.unknownNode x) g := by
  have hkept := hg.kept
  have hlinked := hg.linked
  refine ⟨fun _ _ hn => hkept.id hn, fun _ _ hn => hkept.earlier hn, hkept.wellFounded_inputs,
    hlinked.parents_iff_inputs hkept, fun _ _ hn => hlinked.ascending hn, sinks_ascending hkept,
    hlinked.mem_sinks hkept, ?_⟩
  rintro op inputs position ⟨x, hx, hnone⟩
  rcases addReorg_cases op inputs position g with ⟨hin, -⟩ | hfail
  · obtain ⟨m, hm⟩ := hin x hx
    rw [hnone] at hm
    cases hm
  · exact hfail

/-- a matrix that a node lists twice and another one lists beside it, with a refused node and a placing between them -/
def doubledSteps : List GraphOp :=
  [.addInput "X" (.unknown 1000), .addReorg .transpose [⟨0⟩, ⟨0⟩] {}, .addReorg .transpose [⟨0⟩, ⟨7⟩] {}, .place ⟨0⟩,
    .addReorg .diagToMatrix [⟨1⟩, ⟨0⟩] {}]

def doubled : Graph := (ofConfig {}).afterAll doubledSteps

/-- the matrix notes both consumers once and in their order, the last node is the only sink, and the node that was refused
is refused again -/
theorem doubled_edges :
    (∃ n, doubled.node? ⟨0⟩ = some n ∧ n.parents = [⟨1⟩, ⟨2⟩] ∧ n.parents.Pairwise fun p q => p.index < q.index) ∧
    (∀ x, x ∈ doubled.sinks ↔ (∃ n, doubled.node? x = some n) ∧ ∀ p m, doubled.node? p = some m → x ∉ m.inputs) ∧
    doubled.sinks = [⟨2⟩] ∧
    addReorg .transpose [⟨0⟩, ⟨7⟩] {} doubled = .error (.unknownNode ⟨7⟩) doubled := by
  obtain ⟨-, -, -, -, hascending, -, hsinks, hrefused⟩ := edges_kept (g := doubled) ⟨doubledSteps, rfl⟩
  obtain ⟨n, hn, hparents⟩ : ∃ n, doubled.node? ⟨0⟩ = some n ∧ n.parents = [⟨1⟩, ⟨2⟩] := ⟨_, rfl, rfl⟩
  have hnone : doubled.node? ⟨7⟩ = none := rfl
  refine ⟨⟨n, hn, hparents, hascending _ n hn⟩, hsinks, rfl, ?_⟩
  obtain ⟨x, hx, hx', hfail⟩ := hrefused .transpose [⟨0⟩, ⟨7⟩] {} ⟨⟨7⟩, by simp, hnone⟩
  rcases List.mem_cons.1 hx with rfl | hx
  · rw [hn] at hx'
    cases hx'
  · rwa [List.mem_singleton.1 hx] at hfail

end MatrixEngine.Graph
