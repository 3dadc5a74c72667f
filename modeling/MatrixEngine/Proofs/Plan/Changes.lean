/-
What can change in a graph.

Whatever a step on a graph does, it does by changes of three kinds (`Graph.Change`): it adjusts what is derived or stated
of nodes, attaches a node to inputs that are there, or notes at a node an operator made over the one noted at its only
input, with the next numbers (`Graph.MadeFor`). So what holds of all graphs that steps lead to takes one lemma a kind of
change. Nodes stay with their kinds and inputs, and an operator that is noted at a node stays noted (`Changes.keeps`).
-/
import MatrixEngine.Proofs.Plan.Lowered

namespace MatrixEngine

/-- a node without what is derived of it, stated of it or forced on it: its edges and its operator -/
def Node.outline (n : Node) : Node :=
  { n.unplaced with name := "", size := ⟨none, none, 0, 0, none⟩, forced := none }

theorem Node.of_outline {n n' : Node} (h : n'.outline = n.outline) : n'.id = n.id ∧ n'.kind = n.kind ∧
    n'.inputs = n.inputs ∧ n'.parents = n.parents ∧ n'.lowered = n.lowered := by
  refine ⟨?_, ?_, ?_, ?_, ?_⟩
  · exact show n'.outline.id = n.outline.id by rw [h]
  · exact show n'.outline.kind = n.outline.kind by rw [h]
  · exact show n'.outline.inputs = n.outline.inputs by rw [h]
  · exact show n'.outline.parents = n.outline.parents by rw [h]
  · exact show n'.outline.lowered = n.outline.lowered by rw [h]

/-! ## Operators made for a node -/

namespace Operator

/-- the operators that are made over `a` for a reorganisation, with numbers from `k` on: a direct one, or the chain whose
first operator extracts keyed cells from `a` -/
inductive Over (a : Operator) (k : Nat) : Reorg → Operator → Prop where
  | direct {op : Reorg} {p : Placement} {output : SizeInfo} {position : Position} :
      op ≠ .diagToVector → Over a k op (.transform k a op p output position)
  | chain {output : SizeInfo} {position : Position} :
      Over a k .diagToVector ⟨k + 2, .aggregate .sum, .distributed, output, some .none, position,
        [.group (k + 1) ⟨k, .partialAggregate .diagToVector .col, .distributed, output,
          some (.ofPartial .diagToVector .col), position, [a]⟩ .distributed output position]⟩

/-- what is made for a node whose operator this is: the whole chain of keyed cells, or this one alone -/
def stages (o : Operator) : List Operator :=
  match o.kind with
  | .aggregate _ => o :: o.inputs.flatMap fun group => group :: group.inputs
  | _ => [o]

theorem mem_walk (o : Operator) : o ∈ o.walk := by
  cases o
  simp [walk]

theorem mem_stages (o : Operator) : o ∈ o.stages := by
  unfold stages
  split <;> exact List.mem_cons_self

end Operator

namespace Graph

/-- the operator noted at a node -/
def operator? (g : Graph) (id : NodeId) : Option Operator := (g.node? id).bind (·.lowered)

/-- an operator of a node with numbers from `k` on: its data, or one made over the operator noted at its only input -/
inductive MadeFor (g : Graph) (k : Nat) (n : Node) : Operator → Prop where
  | data {name : String} {size : SizeInfo} {position : Position} :
      n.kind = .input → MadeFor g k n (.data k name size position)
  | reorg {op : Reorg} {input : NodeId} {a o : Operator} :
      n.kind = .reorg op → n.inputs = [input] → g.operator? input = some a → Operator.Over a k op o → MadeFor g k n o

variable {g g' : Graph} {id i : NodeId} {n n' : Node} {o : Operator} {k : Nat}

theorem operator?_eq_some_iff : g.operator? i = some o ↔ ∃ n, g.node? i = some n ∧ n.lowered = some o :=
  Option.bind_eq_some_iff

namespace MadeFor

/-- an operator is of a node of the same kind and inputs wherever the operators noted before are -/
theorem of_same (h : g.MadeFor k n o) (hkind : n'.kind = n.kind) (hinputs : n'.inputs = n.inputs)
    (hnoted : ∀ i a, g.operator? i = some a → g'.operator? i = some a) : g'.MadeFor k n' o := by
  cases h with
  | data hinput => exact .data (hkind.trans hinput)
  | reorg hop hinput ha hover => exact .reorg (hkind.trans hop) (hinputs.trans hinput) (hnoted _ _ ha) hover

/-- the numbers of what is made, from the last to the first -/
theorem numbers (h : g.MadeFor k n o) : o.stages.map (·.number) = (List.range' k o.stages.length).reverse := by
  cases h with
  | data => rfl
  | reorg _ _ _ hover => cases hover <;> rfl

theorem number_stages (h : g.MadeFor k n o) {x : Operator} (hx : x ∈ o.stages) :
    k ≤ x.number ∧ x.number < k + o.stages.length := by
  have hmem : x.number ∈ o.stages.map (·.number) := List.mem_map_of_mem hx
  rwa [h.numbers, List.mem_reverse, List.mem_range'_1] at hmem

theorem nodup_stages (h : g.MadeFor k n o) : (o.stages.map (·.number)).Nodup := by
  rw [h.numbers, List.nodup_reverse]
  exact List.nodup_range'

theorem length_stages (h : g.MadeFor k n o) :
    o.stages.length = if n.kind = .reorg .diagToVector then 3 else 1 := by
  cases h with
  | data hinput =>
    rw [hinput]
    rfl
  | reorg hop _ _ hover =>
    rw [hop]
    cases hover with
    | direct hne =>
      rw [if_neg (fun heq => hne (NodeKind.reorg.inj heq))]
      rfl
    | chain => rfl

/-- what is made is fed by what is made with it or by an operator noted before -/
theorem inputs (h : g.MadeFor k n o) {x y : Operator} (hx : x ∈ o.stages) (hy : y ∈ x.inputs) :
    y ∈ o.stages ∨ ∃ j, g.operator? j = some y := by
  cases h with
  | data =>
    obtain rfl := List.mem_singleton.1 hx
    cases hy
  | @reorg op input a _ _ _ ha hover =>
    cases hover with
    | direct =>
      obtain rfl := List.mem_singleton.1 hx
      obtain rfl := List.mem_singleton.1 hy
      exact .inr ⟨input, ha⟩
    | chain =>
      have hchain : ∀ (third second first : Operator), x ∈ [third, second, first] → third.inputs = [second] →
          second.inputs = [first] → first.inputs = [a] → y ∈ [third, second, first] ∨ ∃ j, g.operator? j = some y := by
        intro third second first hx h₃ h₂ h₁
        simp only [List.mem_cons, List.not_mem_nil, or_false] at hx
        rcases hx with rfl | rfl | rfl
        · rw [h₃, List.mem_singleton] at hy
          simp [hy]
        · rw [h₂, List.mem_singleton] at hy
          simp [hy]
        · rw [h₁, List.mem_singleton] at hy
          exact .inr ⟨input, hy ▸ ha⟩
      exact hchain _ _ _ hx rfl rfl rfl

theorem stages_mem_walk (h : g.MadeFor k n o) : ∀ x ∈ o.stages, x ∈ o.walk := by
  intro x hx
  cases h with
  | data =>
    rw [List.mem_singleton.1 hx]
    exact Operator.mem_walk _
  | reorg _ _ _ hover =>
    cases hover with
    | direct =>
      rw [List.mem_singleton.1 hx]
      exact Operator.mem_walk _
    | chain =>
      simp only [Operator.stages, Operator.group, List.flatMap_cons, List.flatMap_nil, List.append_nil,
        List.mem_cons, List.not_mem_nil, or_false] at hx
      rcases hx with rfl | rfl | rfl <;> simp [Operator.group, Operator.walk, Operator.walkAll]

theorem input_mem_walk (h : g.MadeFor k n o) (hsource : n.kind = .input → n.inputs = []) (hi : i ∈ n.inputs) :
    ∃ a, g.operator? i = some a ∧ a ∈ o.walk := by
  cases h with
  | data hinput =>
    rw [hsource hinput] at hi
    cases hi
  | @reorg op input a _ _ hinput ha hover =>
    obtain rfl : i = input := List.mem_singleton.1 (hinput ▸ hi)
    refine ⟨a, ha, ?_⟩
    cases hover <;> simp [Operator.transform, Operator.group, Operator.walk, Operator.walkAll, a.mem_walk]

end MadeFor

/-! ## Changes -/

/-- a graph without what is derived or stated of nodes, and without settings -/
def outline (g : Graph) : Graph := { g with nodes := g.nodes.map Node.outline, config := {} }

/-- the graph with a new node, which its inputs note as a consumer -/
def attach (g : Graph) (name : String) (kind : NodeKind) (size : SizeInfo) (inputs : List NodeId)
    (position : Position) : Graph :=
  inputs.foldl (fun g' i => g'.update i (addParent ⟨g.nodes.size⟩)) (g.push name kind size inputs position)

/-- the graph with an operator noted at a node, with the next numbers taken by what was made -/
def note (g : Graph) (id : NodeId) (o : Operator) : Graph :=
  { g.update id fun n => { n with lowered := some o } with nextOperator := g.nextOperator + o.stages.length }

/-- one change of a graph -/
inductive Change : Graph → Graph → Prop where
  | adjust {g g' : Graph} : g'.outline = g.outline → Change g g'
  | attach {g : Graph} {name : String} {kind : NodeKind} {size : SizeInfo} {inputs : List NodeId} {position : Position} :
      (∀ i ∈ inputs, ∃ m, g.node? i = some m) → (kind = .input → inputs = []) →
      Change g (g.attach name kind size inputs position)
  | note {g : Graph} {id : NodeId} {n : Node} {o : Operator} :
      g.node? id = some n → n.lowered = none → g.MadeFor g.nextOperator n o → Change g (g.note id o)

/-- changes one after the other -/
abbrev Changes : Graph → Graph → Prop := Relation.ReflTransGen Change

theorem outline_update (id : NodeId) {f : Node → Node} (hf : ∀ n, (f n).outline = n.outline) :
    (g.update id f).outline = g.outline := by
  have hnodes : (g.update id f).nodes.map Node.outline = g.nodes.map Node.outline := g.map_update id hf
  simp only [outline, hnodes]
  rfl

theorem node_of_outline (h : g'.outline = g.outline) (hn : g.node? i = some n) :
    ∃ n', g'.node? i = some n' ∧ n'.outline = n.outline := node_of_map (congrArg nodes h) hn

theorem addParent_addParent (id : NodeId) (n : Node) : addParent id (addParent id n) = addParent id n := by
  by_cases h : n.parents.contains id
  · have hsame : addParent id n = n := if_pos h
    rw [hsame, hsame]
  · have hnew : addParent id n = { n with parents := n.parents ++ [id] } := if_neg h
    have hnoted : (addParent id n).parents.contains id = true := by simp [hnew]
    exact if_pos hnoted

theorem node?_attach {inputs : List NodeId} (hin : ∀ i ∈ inputs, ∃ m, g.node? i = some m) (name : String)
    (kind : NodeKind) (size : SizeInfo) (position : Position) (j : NodeId) :
    (g.attach name kind size inputs position).node? j =
      if j = ⟨g.nodes.size⟩ then
        some { id := ⟨g.nodes.size⟩, name, kind, size, inputs, parents := [], position }
      else if j ∈ inputs then (g.node? j).map (addParent ⟨g.nodes.size⟩)
      else g.node? j := by
  have hfold : ∀ (is : List NodeId) (g' : Graph),
      (is.foldl (fun g' i => g'.update i (addParent ⟨g.nodes.size⟩)) g').node? j =
        if j ∈ is then (g'.node? j).map (addParent ⟨g.nodes.size⟩) else g'.node? j := by
    intro is
    induction is with
    | nil => intro g'; rfl
    | cons i is ih =>
      intro g'
      rw [List.foldl_cons, ih, node?_update]
      by_cases hij : i = j
      · subst hij
        rw [if_pos rfl, if_pos List.mem_cons_self, Option.map_map, Function.comp_def]
        simp only [addParent_addParent, ite_self]
      · rw [if_neg hij]
        simp only [List.mem_cons, Ne.symm hij, false_or]
  rw [attach, hfold, node?_push]
  by_cases hj : j = ⟨g.nodes.size⟩
  · have hnot : j ∉ inputs := by
      intro hmem
      obtain ⟨m, hm⟩ := hin j hmem
      exact absurd (node?_eq_some_lt hm) (by simp [hj])
    rw [if_neg hnot, if_pos hj, if_pos hj]
  · rw [if_neg hj, if_neg hj]

/-- what is read of a node apart from its consumers is the same of all nodes but the new one -/
theorem map_attach {β : Type} {f : Node → β} (hf : ∀ n ps, f { n with parents := ps } = f n) {inputs : List NodeId}
    (hin : ∀ i ∈ inputs, ∃ m, g.node? i = some m) (name : String) (kind : NodeKind) (size : SizeInfo)
    (position : Position) (j : NodeId) :
    ((g.attach name kind size inputs position).node? j).map f =
      if j = ⟨g.nodes.size⟩ then some (f { id := ⟨g.nodes.size⟩, name, kind, size, inputs, parents := [], position })
      else (g.node? j).map f := by
  have hparent : f ∘ addParent ⟨g.nodes.size⟩ = f := by
    funext n
    obtain ⟨ps, hparents, -⟩ := addParent_eq ⟨g.nodes.size⟩ n
    rw [Function.comp_apply, hparents, hf]
  rw [node?_attach hin]
  split_ifs
  · rfl
  · rw [Option.map_map, hparent]
  · rfl

theorem node?_note (g : Graph) (id : NodeId) (o : Operator) (j : NodeId) :
    (g.note id o).node? j = if id = j then (g.node? j).map fun n => { n with lowered := some o } else g.node? j :=
  node?_update g id j _

/-- **A node stays** with its kind and its inputs, and what is noted at it stays noted. -/
theorem Change.keeps (h : Change g g') (hn : g.node? i = some n) : ∃ n', g'.node? i = some n' ∧ n'.kind = n.kind ∧
    n'.inputs = n.inputs ∧ ∀ o, n.lowered = some o → n'.lowered = some o := by
  cases h with
  | adjust hsame =>
    obtain ⟨n', hn', hout⟩ := node_of_outline hsame hn
    obtain ⟨-, hkind, hinputs, -, hlowered⟩ := Node.of_outline hout
    exact ⟨n', hn', hkind, hinputs, fun o ho => hlowered.trans ho⟩
  | @attach name kind size inputs position hin _ =>
    have hne : i ≠ ⟨g.nodes.size⟩ := fun h => absurd (node?_eq_some_lt hn) (by simp [h])
    rw [node?_attach hin, if_neg hne, hn]
    split_ifs
    · obtain ⟨ps, hparents, -⟩ := addParent_eq ⟨g.nodes.size⟩ n
      exact ⟨_, rfl, by rw [hparents], by rw [hparents], fun o ho => by rwa [hparents]⟩
    · exact ⟨n, rfl, rfl, rfl, fun _ ho => ho⟩
  | @note id m o hm hnone _ =>
    rw [node?_note, hn]
    split_ifs with hid
    · subst hid
      obtain rfl := Option.some.inj (hm.symm.trans hn)
      exact ⟨_, rfl, rfl, rfl, fun o' ho' => by rw [hnone] at ho'; cases ho'⟩
    · exact ⟨n, rfl, rfl, rfl, fun _ ho => ho⟩

theorem Changes.keeps (h : Changes g g') (hn : g.node? i = some n) : ∃ n', g'.node? i = some n' ∧ n'.kind = n.kind ∧
    n'.inputs = n.inputs ∧ ∀ o, n.lowered = some o → n'.lowered = some o := by
  induction h with
  | refl => exact ⟨n, hn, rfl, rfl, fun _ ho => ho⟩
  | tail _ hlast ih =>
    obtain ⟨n₁, hn₁, hkind₁, hinputs₁, hlowered₁⟩ := ih
    obtain ⟨n₂, hn₂, hkind₂, hinputs₂, hlowered₂⟩ := hlast.keeps hn₁
    exact ⟨n₂, hn₂, hkind₂.trans hkind₁, hinputs₂.trans hinputs₁, fun o ho => hlowered₂ o (hlowered₁ o ho)⟩

/-- **What is noted at a node stays noted.** -/
theorem Changes.operator? (h : Changes g g') (ho : g.operator? i = some o) : g'.operator? i = some o := by
  obtain ⟨n, hn, hlowered⟩ := operator?_eq_some_iff.1 ho
  obtain ⟨n', hn', -, -, hkept⟩ := h.keeps hn
  exact operator?_eq_some_iff.2 ⟨n', hn', hkept o hlowered⟩

end Graph

end MatrixEngine
