/-
Lowering loses nothing and makes nothing twice.

An operator that is noted at a node is the answer to every later request for it, whatever steps come between. If all
sinks are lowered, so is every node, since consumers lead from it to a sink and what is noted at a consumer was made over
what is noted at its input. Hence the plan of all sinks has just the operators made for the nodes of the graph, each under
a number of its own (`lowerAll_size`).
-/
import MatrixEngine.Proofs.Physical.Memo
import MatrixEngine.Proofs.Plan.Reached
import MatrixEngine.Proofs.Sequence

namespace MatrixEngine

namespace Operator

mutual

theorem walk_trans : ∀ (o : Operator), ∀ x ∈ o.walk, ∀ y ∈ x.walk, y ∈ o.walk
  | ⟨number, kind, placement, output, correction, position, inputs⟩, x, hx, y, hy => by
    rw [walk, List.mem_append, List.mem_singleton] at hx
    rcases hx with hx | rfl
    · rw [walk]
      exact List.mem_append_left _ (walkAll_trans inputs x hx y hy)
    · exact hy

theorem walkAll_trans : ∀ (os : List Operator), ∀ x ∈ walkAll os, ∀ y ∈ x.walk, y ∈ walkAll os
  | [], x, hx, _, _ => by simp [walkAll] at hx
  | o :: rest, x, hx, y, hy => by
    rw [walkAll, List.mem_append] at hx ⊢
    rcases hx with hx | hx
    · exact .inl (walk_trans o x hx y hy)
    · exact .inr (walkAll_trans rest x hx y hy)

end

theorem mem_walkAll {os : List Operator} {o : Operator} (ho : o ∈ os) : o ∈ walkAll os := by
  induction os with
  | nil => cases ho
  | cons a os ih =>
    rw [walkAll, List.mem_append]
    rcases List.mem_cons.1 ho with rfl | ho
    · exact .inl o.mem_walk
    · exact .inr (ih ho)

end Operator

namespace Graph

variable {g g' : Graph} {id i : NodeId} {n : Node} {o : Operator}

/-! ## Once lowered -/

theorem lower_noted (ho : g.operator? id = some o) : lower id g = .ok o g := by
  obtain ⟨n, hn, hlowered⟩ := operator?_eq_some_iff.1 ho
  rw [lower, step_ok (node_ok hn), hlowered]
  rfl

/-- **A node that was lowered stays lowered to its operator**, whatever steps follow. -/
theorem lower_afterAll (hg : g.Kept) (h : lower id g = .ok o g') (ops : List GraphOp) :
    lower id (g'.afterAll ops) = .ok o (g'.afterAll ops) := by
  obtain ⟨hlowers, hnoted⟩ := lower_notes id hg
  rw [h, ending_ok] at hlowers
  have hkept : g'.Kept := hlowers.changes.kept hg
  exact lower_noted ((afterAll_changes hkept ops).operator? (hnoted o g' h))

/-! ## The operators of a plan -/

/-- if all sinks are lowered to the roots, all nodes are lowered, to operators met below the roots -/
theorem operator_met (hg : g.Kept) {roots : List Operator}
    (h : List.Forall₂ (fun id o => g.operator? id = some o) g.sinks roots) (hn : g.node? i = some n) :
    ∃ o, g.operator? i = some o ∧ o ∈ Operator.walkAll roots := by
  have hlater : ∀ {i n p}, g.node? i = some n → p ∈ n.parents → ∃ m, g.node? p = some m ∧ i.index < p.index := by
    intro i n p hn hp
    obtain ⟨m, hm, hi⟩ := hg.consumer hn hp
    exact ⟨m, hm, hg.earlier hm i hi⟩
  refine induct_parents hlater (P := fun i => ∃ o, g.operator? i = some o ∧ o ∈ Operator.walkAll roots)
    (fun i n hn hparents => ?_) (fun i n p hn hp hmet => ?_) i n hn
  · obtain ⟨o, ho, hsame⟩ := Sequence.exists_right h ((mem_sinks hg.id).2 ⟨n, hn, hparents⟩)
    exact ⟨o, hsame, Operator.mem_walkAll ho⟩
  · -- the operator of the consumer was made over that of the node
    obtain ⟨o, ho, hmem⟩ := hmet
    obtain ⟨m, hm, hlowered⟩ := operator?_eq_some_iff.1 ho
    obtain ⟨c, hc, hi⟩ := hg.consumer hn hp
    obtain rfl := Option.some.inj (hm.symm.trans hc)
    obtain ⟨k, hmade⟩ := hg.noted hm hlowered
    obtain ⟨a, ha, hwalk⟩ := hmade.input_mem_walk (hg.source hm) hi
    exact ⟨a, ha, Operator.walkAll_trans roots o hmem a hwalk⟩

/-- then the operators met below the roots are those made for the nodes -/
theorem mem_walkAll_iff (hg : g.Kept) {roots : List Operator}
    (h : List.Forall₂ (fun id o => g.operator? id = some o) g.sinks roots) :
    o ∈ Operator.walkAll roots ↔ o ∈ g.made := by
  constructor
  · refine hg.numbered.walkAll roots (fun r hr => ?_) o
    obtain ⟨id, -, hid⟩ := Sequence.exists_left h hr
    exact mem_made.2 ⟨id, r, hid, r.mem_stages⟩
  · intro ho
    obtain ⟨i, l, hl, hstage⟩ := mem_made.1 ho
    obtain ⟨n, hn, hlowered⟩ := operator?_eq_some_iff.1 hl
    obtain ⟨k, hmade⟩ := hg.noted hn hlowered
    obtain ⟨l', hl', hmem⟩ := operator_met hg h hn
    obtain rfl := Option.some.inj (hl.symm.trans hl')
    exact Operator.walkAll_trans roots l hmem o (hmade.stages_mem_walk o hstage)

/-- a node of a kind that takes three operators -/
def isChain (n : Node) : Bool := n.kind = .reorg .diagToVector

/-- what was made for nodes that are all lowered: one operator each, and two more for each chain -/
theorem length_made {nodes : List Node} (h : ∀ n ∈ nodes, n.made.length = if isChain n then 3 else 1) :
    (nodes.flatMap Node.made).length = nodes.length + 2 * nodes.countP isChain := by
  induction nodes with
  | nil => rfl
  | cons n nodes ih =>
    have hrest := ih fun m hm => h m (List.mem_cons_of_mem n hm)
    have hfirst := h n List.mem_cons_self
    rw [List.flatMap_cons, List.length_append, hfirst, hrest, List.length_cons, List.countP_cons]
    split_ifs <;> omega

/-- **The plan of a graph has the operators of its nodes**, three for a chain and one for any other node. -/
theorem lowerAll_size (hg : g.Kept) {p : Program} (h : lowerAll g = .ok p g') :
    List.Forall₂ (fun id o => g'.operator? id = some o) g.sinks p.roots ∧
      p.size = g.nodes.size + 2 * g.nodes.toList.countP isChain := by
  obtain ⟨hlowers, hnoted⟩ := lowerAll_notes hg
  rw [h, ending_ok] at hlowers
  have hroots := hnoted p g' h
  have hkept : g'.Kept := hlowers.changes.kept hg
  have hroots' : List.Forall₂ (fun id o => g'.operator? id = some o) g'.sinks p.roots := hlowers.sinks ▸ hroots
  refine ⟨hroots, ?_⟩
  have hnumbers : ∀ k, k ∈ g'.made.map (·.number) ↔ k ∈ (Operator.walkAll p.roots).map (·.number) := by
    intro k
    simp only [List.mem_map, mem_walkAll_iff hkept hroots']
  have hlength : ∀ n ∈ g'.nodes.toList, n.made.length = if isChain n then 3 else 1 := by
    intro n hn
    obtain ⟨i, hi⟩ := Array.mem_iff_getElem?.1 (Array.mem_toList_iff.1 hn)
    obtain ⟨o, ho, -⟩ := operator_met hkept hroots' (i := ⟨i⟩) hi
    obtain ⟨n', hn', hlowered⟩ := operator?_eq_some_iff.1 ho
    obtain rfl := Option.some.inj (hi.symm.trans hn')
    obtain ⟨k, hmade⟩ := hkept.noted hn' hlowered
    simp only [Node.made, hlowered, Option.map_some, Option.getD_some, hmade.length_stages, isChain,
      decide_eq_true_eq]
  have hsame : ∀ g : Graph, g.nodes.toList.countP isChain = (g.nodes.map Node.edges).toList.countP isChain := by
    intro g
    rw [Array.toList_map, List.countP_map]
    rfl
  have hsize : g'.nodes.size = g.nodes.size := by
    rw [← Array.size_map (f := Node.edges), hlowers.edges, Array.size_map]
  calc p.size = (g'.made.map (·.number)).length := Operator.length_distinct hkept.nodup hnumbers
    _ = g'.made.length := List.length_map _
    _ = g'.nodes.size + 2 * g'.nodes.toList.countP isChain := by
        rw [made, length_made hlength, Array.length_toList]
    _ = g.nodes.size + 2 * g.nodes.toList.countP isChain := by rw [hsize, hsame g', hlowers.edges, ← hsame]

theorem sinks_ascending (hg : g.Kept) : g.sinks.Pairwise fun i j => i.index < j.index := by
  have hids : g.nodes.toList.map (·.id) = (List.range g.nodes.size).map NodeId.mk := by
    refine List.ext_getElem? fun k => ?_
    rw [List.getElem?_map, List.getElem?_map, Array.getElem?_toList]
    rcases Nat.lt_or_ge k g.nodes.size with hk | hk
    · have hn : g.node? ⟨k⟩ = some g.nodes[k] := Array.getElem?_eq_getElem hk
      rw [Array.getElem?_eq_getElem hk, List.getElem?_range hk, Option.map_some, Option.map_some, hg.id hn]
    · rw [Array.getElem?_eq_none hk, List.getElem?_eq_none (by simpa using hk)]
      rfl
  have hall : (g.nodes.toList.map (·.id)).Pairwise fun i j => i.index < j.index := by
    rw [hids, List.pairwise_map]
    exact List.pairwise_lt_range
  exact hall.sublist (List.filter_sublist.map _)

/-- **Lowering loses nothing and makes nothing twice**, in every graph that any steps lead to, failing ones included:
- once a node is lowered, every later request for it answers with the same operator and changes nothing, whatever steps
  come between;
- the operator of a lowered reorganisation is made over the operator that is noted at its only input, which is the only
  input of the first operator made;
- if lowering all sinks succeeds, the roots of the plan are the operators of the sinks, in ascending order, and the plan
  has as many operators as the graph has nodes and two more for each diagonal of a matrix. -/
theorem lowering_complete {config : PlannerConfig} (hg : g.Reached config) :
    (∀ id o g₁, lower id g = .ok o g₁ → ∀ ops, lower id (g₁.afterAll ops) = .ok o (g₁.afterAll ops)) ∧
    (∀ id n op o, g.node? id = some n → n.kind = .reorg op → n.lowered = some o →
      ∃ input a k, n.inputs = [input] ∧ g.operator? input = some a ∧ Operator.Over a k op o) ∧
    ∀ p g', lowerAll g = .ok p g' →
      (∀ id, id ∈ g.sinks ↔ ∃ n, g.node? id = some n ∧ n.parents = []) ∧
      g.sinks.Pairwise (fun i j => i.index < j.index) ∧
      List.Forall₂ (fun id o => g'.operator? id = some o) g.sinks p.roots ∧
      p.size = g.nodes.size + 2 * g.nodes.toList.countP fun n => n.kind = .reorg .diagToVector := by
  have hkept := hg.kept
  refine ⟨fun id o g₁ h ops => lower_afterAll hkept h ops, fun id n op o hn hkind ho => ?_, fun p g' h => ?_⟩
  · obtain ⟨k, hmade⟩ := hkept.noted hn ho
    cases hmade with
    | data hinput =>
      rw [hinput] at hkind
      cases hkind
    | reorg hop hinputs ha hover =>
      obtain rfl := NodeKind.reorg.inj (hop.symm.trans hkind)
      exact ⟨_, _, k, hinputs, ha, hover⟩
  · obtain ⟨hroots, hsize⟩ := lowerAll_size hkept h
    exact ⟨fun id => mem_sinks hkept.id, sinks_ascending hkept, hroots, hsize⟩

/-- a square, its diagonal, and two transposes of the diagonal -/
def sharedSteps : List GraphOp :=
  [.addInput "X" ⟨some 2, some 2, 1000, 1000, none⟩, .addReorg .diagToVector [⟨0⟩] {}, .addReorg .transpose [⟨1⟩] {},
    .addReorg .transpose [⟨1⟩] {}]

def sharedDiagonal : Graph := (ofConfig {}).afterAll sharedSteps

theorem sharedDiagonal_built : sharedDiagonal.Built {} := by
  have hinput := addInput_eq (ofConfig {}) "X" ⟨some 2, some 2, 1000, 1000, none⟩
  have hdiagonal : ((ofConfig {}).afterAll (sharedSteps.take 2)).Built {} :=
    .reorg (.input .empty hinput) (show addReorg .diagToVector [⟨0⟩] {} _ = .ok ⟨1⟩ _ from rfl)
  have hfirst : ((ofConfig {}).afterAll (sharedSteps.take 3)).Built {} :=
    .reorg hdiagonal (show addReorg .transpose [⟨1⟩] {} _ = .ok ⟨2⟩ _ from rfl)
  exact .reorg hfirst (show addReorg .transpose [⟨1⟩] {} _ = .ok ⟨3⟩ _ from rfl)

/-- the diagonal is lowered once, before and after its square is resized and all sinks are lowered; the plan has three
operators for it and one each for the square and the transposes -/
theorem shared_diagonal_has_six :
    (∃ o g₁, lower ⟨1⟩ sharedDiagonal = .ok o g₁ ∧
      lower ⟨1⟩ (g₁.afterAll [.resize ⟨0⟩ (.unknown 1000), .refreshAll, .lowerAll]) =
        .ok o (g₁.afterAll [.resize ⟨0⟩ (.unknown 1000), .refreshAll, .lowerAll])) ∧
    ∃ p g', lowerAll sharedDiagonal = .ok p g' ∧ p.roots.length = 2 ∧ p.size = 6 := by
  have hreached : sharedDiagonal.Reached {} := ⟨sharedSteps, rfl⟩
  have hsound := sharedDiagonal_built.sound
  obtain ⟨hsame, -, hall⟩ := lowering_complete hreached
  obtain ⟨n, hn⟩ : ∃ n, sharedDiagonal.node? ⟨1⟩ = some n := ⟨_, rfl⟩
  obtain ⟨o, g₁, -, hlower, -⟩ := lower_makes hsound hn (.start hsound)
  obtain ⟨p, g', hlowerAll, -⟩ := lowerAll_lowers hsound
  obtain ⟨-, -, hroots, hsize⟩ := hall p g' hlowerAll
  have hsinks : sharedDiagonal.sinks = [⟨2⟩, ⟨3⟩] := rfl
  have hcount : sharedDiagonal.nodes.toList.countP (fun n => n.kind = .reorg .diagToVector) = 1 := rfl
  rw [hcount] at hsize
  refine ⟨⟨o, g₁, hlower, hsame _ o g₁ hlower _⟩, p, g', hlowerAll, ?_, hsize⟩
  rw [← hroots.length_eq, hsinks]
  rfl

end Graph

end MatrixEngine
