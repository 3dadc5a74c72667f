/-
What lowering makes of a graph.

`Graph.Lowers` says which operators a node may be lowered to: they follow the node's kind and input, with any numbers
and placements. Lowering keeps an invariant (`Lowering`): the operators made so far are told apart by their numbers, and
what is noted at a node is one of its operators. Hence the plan of a graph that fits has for each sink one of its
operators, and numbers tell the operators of the plan apart (`lowerAll_lowers`).
-/
import MatrixEngine.Plan.Lowering
import MatrixEngine.Proofs.Physical.Recursion
import MatrixEngine.Proofs.Plan.Placed

namespace MatrixEngine

/-! ## Numbered operators -/

/-- operators that are told apart by their numbers, all below `next`, with their inputs among them -/
structure Operator.Numbered (made : List Operator) (next : Nat) : Prop where
  below : ∀ o ∈ made, o.number < next
  tell : ∀ a ∈ made, ∀ b ∈ made, a.number = b.number → a = b
  inputs : ∀ o ∈ made, ∀ x ∈ o.inputs, x ∈ made

namespace Operator.Numbered

variable {made : List Operator} {next : Nat}

theorem nil (next : Nat) : Numbered [] next := ⟨by simp, by simp, by simp⟩

/-- an operator with the next number joins -/
theorem cons (h : Numbered made next) {o : Operator} (hnumber : o.number = next) (hinputs : ∀ x ∈ o.inputs, x ∈ made) :
    Numbered (o :: made) (next + 1) := by
  have hother : ∀ a ∈ made, a.number ≠ o.number := fun a ha => by
    have := h.below a ha
    omega
  refine ⟨fun a ha => ?_, fun a ha b hb hab => ?_, fun a ha x hx => ?_⟩
  · rcases List.mem_cons.1 ha with rfl | ha
    · omega
    · exact (h.below a ha).trans (Nat.lt_succ_self next)
  · rcases List.mem_cons.1 ha with rfl | hold
    · rcases List.mem_cons.1 hb with rfl | hb
      · rfl
      · exact absurd hab.symm (hother b hb)
    · rcases List.mem_cons.1 hb with rfl | hb
      · exact absurd hab (hother a hold)
      · exact h.tell a hold b hb hab
  · rcases List.mem_cons.1 ha with rfl | ha
    · exact List.mem_cons_of_mem _ (hinputs x hx)
    · exact List.mem_cons_of_mem _ (h.inputs a ha x hx)

mutual

theorem walk (h : Numbered made next) : ∀ o : Operator, o ∈ made → ∀ x ∈ o.walk, x ∈ made
  | ⟨number, kind, placement, output, correction, position, inputs⟩, ho, x, hx => by
    rw [Operator.walk, List.mem_append, List.mem_singleton] at hx
    rcases hx with hx | rfl
    · exact walkAll h inputs (fun a ha => h.inputs _ ho a ha) x hx
    · exact ho

theorem walkAll (h : Numbered made next) :
    ∀ os : List Operator, (∀ o ∈ os, o ∈ made) → ∀ x ∈ Operator.walkAll os, x ∈ made
  | [], _, x, hx => by simp [Operator.walkAll] at hx
  | o :: rest, hos, x, hx => by
    rw [Operator.walkAll, List.mem_append] at hx
    rcases hx with hx | hx
    · exact walk h o (hos o List.mem_cons_self) x hx
    · exact walkAll h rest (fun a ha => hos a (List.mem_cons_of_mem o ha)) x hx

end

theorem numbersTell (h : Numbered made next) {os : List Operator} (hos : ∀ o ∈ os, o ∈ made) : NumbersTell os :=
  fun a ha b hb => h.tell a (h.walkAll os hos a ha) b (h.walkAll os hos b hb)

end Operator.Numbered

namespace Graph

/-! ## What a node may be lowered to -/

/-- the operators of a node: its data, a direct operator over an operator of its input, or the chain that extracts,
sorts and sums keyed cells -/
inductive Lowers (g : Graph) : NodeId → Operator → Prop where
  | data {id : NodeId} {n : Node} {number : Nat} :
      g.node? id = some n → n.kind = .input → Lowers g id (.data number n.name n.size n.position)
  | direct {id input : NodeId} {n : Node} {op : Reorg} {a : Operator} {number : Nat} {p : Placement} :
      g.node? id = some n → n.kind = .reorg op → n.inputs = [input] → op ≠ .diagToVector → Lowers g input a →
      Lowers g id (.transform number a op p n.size n.position)
  | chain {id input : NodeId} {n : Node} {a : Operator} {first second third : Nat} :
      g.node? id = some n → n.kind = .reorg .diagToVector → n.inputs = [input] → Lowers g input a →
      Lowers g id ⟨third, .aggregate .sum, .distributed, n.size, some .none, n.position,
        [.group second ⟨first, .partialAggregate .diagToVector .col, .distributed, n.size,
          some (.ofPartial .diagToVector .col), n.position, [a]⟩ .distributed n.size n.position]⟩

/-- lowering on its way from `g₀` to `g`: nodes are what they were, the operators made so far are numbered, and what is
noted at a node is one of them and an operator of the node -/
structure Lowering (g₀ g : Graph) (made : List Operator) : Prop where
  same : ∀ i, (g.node? i).map Node.bare = (g₀.node? i).map Node.bare
  numbered : Operator.Numbered made g.nextOperator
  noted : ∀ {i n o}, g.node? i = some n → n.lowered = some o → o ∈ made ∧ g₀.Lowers i o

variable {g₀ g : Graph} {made : List Operator}

namespace Lowering

theorem start (hg : g₀.Sound) : Lowering g₀ g₀ [] := by
  refine ⟨fun _ => rfl, .nil _, fun {i n o} hn ho => ?_⟩
  rw [hg.fresh hn] at ho
  cases ho

theorem node (h : Lowering g₀ g made) {i : NodeId} {n₀ : Node} (hn : g₀.node? i = some n₀) :
    ∃ n, g.node? i = some n ∧ n.bare = n₀.bare :=
  Option.map_eq_some_iff.1 ((h.same i).trans (congrArg (Option.map Node.bare) hn))

/-- estimates and placements do not matter -/
theorem of_unplaced (h : Lowering g₀ g made) {g' : Graph} (hg' : g'.unplaced = g.unplaced) : Lowering g₀ g' made := by
  have hnext : g'.nextOperator = g.nextOperator := show g'.unplaced.nextOperator = g.unplaced.nextOperator by rw [hg']
  refine ⟨fun i => ?_, hnext ▸ h.numbered, fun {i n o} hn ho => ?_⟩
  · have hmap : ∀ g : Graph, (g.node? i).map Node.bare =
        (g.unplaced.node? i).map fun n => { n with lowered := none } := by
      intro g
      rw [node?_unplaced, Option.map_map]
      rfl
    rw [hmap g', hg', ← hmap g, h.same i]
  · obtain ⟨n', hn', hsame⟩ := node_of_unplaced hg'.symm hn
    have hlowered : n'.lowered = n.lowered := show n'.unplaced.lowered = n.unplaced.lowered by rw [hsame]
    exact h.noted hn' (hlowered.trans ho)

theorem make (h : Lowering g₀ g made) {o : Operator} (hnumber : o.number = g.nextOperator)
    (hinputs : ∀ x ∈ o.inputs, x ∈ made) :
    Lowering g₀ { g with nextOperator := g.nextOperator + 1 } (o :: made) := by
  refine ⟨h.same, h.numbered.cons hnumber hinputs, fun {i n o'} hn ho' => ?_⟩
  obtain ⟨hmem, hlowers⟩ := h.noted hn ho'
  exact ⟨List.mem_cons_of_mem o hmem, hlowers⟩

theorem note (h : Lowering g₀ g made) {id : NodeId} {o : Operator} (ho : o ∈ made) (hlowers : g₀.Lowers id o) :
    Lowering g₀ (g.update id fun n => { n with lowered := some o }) made := by
  refine ⟨fun i => ?_, h.numbered, fun {i n o'} hn ho' => ?_⟩
  · rw [node?_update, ← h.same i]
    split_ifs with hi
    · rw [Option.map_map]
      rfl
    · rfl
  · rw [node?_update] at hn
    split_ifs at hn with hi
    · subst hi
      obtain ⟨m, -, rfl⟩ := Option.map_eq_some_iff.1 hn
      obtain rfl := Option.some.inj ho'
      exact ⟨ho, hlowers⟩
    · exact h.noted hn ho'

end Lowering

/-! ## Steps of lowering -/

/-- a step that ends in an operator of a node, which is made or met on the way -/
def Makes (g₀ g : Graph) (made : List Operator) (id : NodeId) (m : GraphM Operator) : Prop :=
  ∃ o g' made', m g = .ok o g' ∧ Lowering g₀ g' made' ∧ made ⊆ made' ∧ o ∈ made' ∧ g₀.Lowers id o

theorem freshNumber_eq (g : Graph) :
    freshNumber g = .ok g.nextOperator { g with nextOperator := g.nextOperator + 1 } := rfl

theorem Makes.noted {id : NodeId} {m : GraphM Operator} (h : Makes g₀ g made id m) :
    Makes g₀ g made id (m >>= noteLowered id) := by
  obtain ⟨o, g₁, made₁, hm, h₁, hsub, ho, hlowers⟩ := h
  exact ⟨o, _, made₁, step_ok hm, h₁.note ho hlowers, hsub, ho, hlowers⟩

theorem data_makes (h : Lowering g₀ g made) {id : NodeId} {n n₀ : Node} (hn : g₀.node? id = some n₀)
    (hsame : n.bare = n₀.bare) (hkind : n₀.kind = .input) :
    Makes g₀ g made id (do return .data (← freshNumber) n.name n.size n.position) := by
  obtain ⟨hname, -, hsize, -, hposition⟩ := Node.of_bare hsame
  rw [hname, hsize, hposition]
  refine ⟨_, _, _, step_ok (freshNumber_eq g), h.make rfl ?_, List.subset_cons_self _ made, List.mem_cons_self,
    .data hn hkind⟩
  intro x hx
  cases hx

theorem diagonalChain_makes (h : Lowering g₀ g made) {id input : NodeId} {n n₀ : Node} {a : Operator}
    (hn : g₀.node? id = some n₀) (hsame : n.bare = n₀.bare) (hkind : n₀.kind = .reorg .diagToVector)
    (hinputs : n₀.inputs = [input]) (ha : a ∈ made) (hlowers : g₀.Lowers input a) :
    Makes g₀ g made id (diagonalChain a n) := by
  obtain ⟨-, -, hsize, -, hposition⟩ := Node.of_bare hsame
  rw [diagonalChain, hsize, hposition]
  set k := g.nextOperator with hk
  set first : Operator := ⟨k, .partialAggregate .diagToVector .col, .distributed, n₀.size,
    some (.ofPartial .diagToVector .col), n₀.position, [a]⟩ with hfirst
  set second : Operator := .group (k + 1) first .distributed n₀.size n₀.position with hsecond
  set third : Operator := ⟨k + 2, .aggregate .sum, .distributed, n₀.size, some .none, n₀.position, [second]⟩
    with hthird
  have h₁ : Lowering g₀ { g with nextOperator := k + 1 } (first :: made) := by
    refine h.make rfl fun x hx => ?_
    rw [List.mem_singleton.1 hx]
    exact ha
  have h₂ : Lowering g₀ { g with nextOperator := k + 2 } (second :: first :: made) := by
    refine h₁.make rfl fun x hx => ?_
    rw [List.mem_singleton.1 hx]
    exact List.mem_cons_self
  have h₃ : Lowering g₀ { g with nextOperator := k + 3 } (third :: second :: first :: made) := by
    refine h₂.make rfl fun x hx => ?_
    rw [List.mem_singleton.1 hx]
    exact List.mem_cons_self
  refine ⟨third, _, _, rfl, h₃, fun x hx => ?_, List.mem_cons_self, .chain hn hkind hinputs hlowers⟩
  exact List.mem_cons_of_mem _ (List.mem_cons_of_mem _ (List.mem_cons_of_mem _ hx))

theorem transform_makes (hg : g₀.Sound) (h : Lowering g₀ g made) {id input : NodeId} {n n₀ : Node} {op : Reorg}
    {a : Operator} (hn : g₀.node? id = some n₀) (hsame : n.bare = n₀.bare) (hkind : n₀.kind = .reorg op)
    (hinputs : n₀.inputs = [input]) (hop : op ≠ .diagToVector) (ha : a ∈ made) (hlowers : g₀.Lowers input a) :
    Makes g₀ g made id (do
      let p ← place id
      return .transform (← freshNumber) a op p n.size n.position) := by
  obtain ⟨-, -, hsize, -, hposition⟩ := Node.of_bare hsame
  rw [hsize, hposition]
  obtain ⟨n', hn', hsame'⟩ := h.node hn
  have hin : g.InputsIn n' := by
    intro i hi
    obtain ⟨-, -, -, hinputs', -⟩ := Node.of_bare hsame'
    rw [hinputs', hinputs, List.mem_singleton] at hi
    subst hi
    obtain ⟨-, m, hm, -⟩ := hg.input hn hkind hinputs
    obtain ⟨m', hm', -⟩ := h.node hm
    exact ⟨m', hm'⟩
  obtain ⟨p, g₁, hplace, hquiet⟩ := place_quiet hn' hin
  have h₁ := h.of_unplaced hquiet
  refine ⟨.transform g₁.nextOperator a op p n₀.size n₀.position, _, _, ?_,
    h₁.make (o := .transform g₁.nextOperator a op p n₀.size n₀.position) rfl ?_, List.subset_cons_self _ made,
    List.mem_cons_self, .direct hn hkind hinputs hop hlowers⟩
  · rw [step_ok hplace]
    rfl
  · intro x hx
    rw [List.mem_singleton.1 hx]
    exact ha

theorem lowerOver_makes (hg : g₀.Sound) (h : Lowering g₀ g made) {id input : NodeId} {n n₀ : Node} {op : Reorg}
    {a : Operator} (hn : g₀.node? id = some n₀) (hsame : n.bare = n₀.bare) (hkind : n₀.kind = .reorg op)
    (hinputs : n₀.inputs = [input]) (ha : a ∈ made) (hlowers : g₀.Lowers input a) :
    Makes g₀ g made id (lowerOver id n op a) := by
  cases op with
  | diagToVector => exact diagonalChain_makes h hn hsame hkind hinputs ha hlowers
  | transpose => exact transform_makes hg h hn hsame hkind hinputs (by simp) ha hlowers
  | diagToMatrix => exact transform_makes hg h hn hsame hkind hinputs (by simp) ha hlowers

/-- **Lowering a node makes one of its operators**, or meets the one that was made before. -/
theorem lower_makes (hg : g₀.Sound) {id : NodeId} {n₀ : Node} (hn : g₀.node? id = some n₀)
    (h : Lowering g₀ g made) : Makes g₀ g made id (lower id) := by
  induction hk : id.index using Nat.strong_induction_on generalizing id n₀ g made with
  | _ k ih =>
    obtain ⟨n, hn', hsame⟩ := h.node hn
    obtain ⟨-, hkind, -, hinputs, -⟩ := Node.of_bare hsame
    unfold Makes
    rw [lower, step_ok (node_ok hn')]
    cases hlowered : n.lowered with
    | some o =>
      obtain ⟨ho, hlowers⟩ := h.noted hn' hlowered
      exact ⟨o, g, made, rfl, h, List.Subset.refl made, ho, hlowers⟩
    | none =>
      rw [hkind, hinputs]
      cases hkind₀ : n₀.kind with
      | input => exact (data_makes h hn hsame hkind₀).noted
      | reorg op =>
        obtain ⟨input, m, hinputs₀, hlt, hm, -⟩ := hg.reorg hn hkind₀
        rw [hinputs₀]
        simp only [dif_pos hlt]
        -- first the input, then the node over it
        obtain ⟨a, g₁, made₁, hlower, h₁, hsub₁, ha, hlowers⟩ := ih input.index (hk ▸ hlt) hm h rfl
        obtain ⟨o, g₂, made₂, hover, h₂, hsub₂, ho, hlowers'⟩ :=
          (lowerOver_makes hg h₁ hn hsame hkind₀ hinputs₀ ha hlowers).noted
        exact ⟨o, g₂, made₂, (step_ok hlower).trans hover, h₂, List.Subset.trans hsub₁ hsub₂, ho, hlowers'⟩

/-- lowering nodes one after the other -/
theorem lowers_make (hg : g₀.Sound) (ids : List NodeId) :
    (∀ id ∈ ids, ∃ n, g₀.node? id = some n) → ∀ (g : Graph) (made : List Operator), Lowering g₀ g made →
      ∃ os g' made', ids.mapM lower g = .ok os g' ∧ Lowering g₀ g' made' ∧ made ⊆ made' ∧ (∀ o ∈ os, o ∈ made') ∧
        List.Forall₂ g₀.Lowers ids os := by
  induction ids with
  | nil => exact fun _ g made h => ⟨[], g, made, rfl, h, List.Subset.refl made, by simp, .nil⟩
  | cons id ids ih =>
    intro hids g made h
    obtain ⟨n, hn⟩ := hids id List.mem_cons_self
    obtain ⟨o, g₁, made₁, hlower, h₁, hsub₁, ho, hlowers⟩ := lower_makes hg hn h
    obtain ⟨os, g₂, made₂, hrest, h₂, hsub₂, hos, hall⟩ :=
      ih (fun i hi => hids i (List.mem_cons_of_mem id hi)) g₁ made₁ h₁
    refine ⟨o :: os, g₂, made₂, ?_, h₂, List.Subset.trans hsub₁ hsub₂, fun x hx => ?_, .cons hlowers hall⟩
    · rw [List.mapM_cons, step_ok hlower, step_ok hrest]
      rfl
    · rcases List.mem_cons.1 hx with rfl | hx
      · exact hsub₂ ho
      · exact hos x hx

/-- **The plan of a graph** has for each sink one of its operators, and numbers tell its operators apart. -/
theorem lowerAll_lowers (hg : g₀.Sound) : ∃ p g', lowerAll g₀ = .ok p g' ∧ Operator.NumbersTell p.roots ∧
    List.Forall₂ g₀.Lowers g₀.sinks p.roots := by
  have hsinks : ∀ id ∈ g₀.sinks, ∃ n, g₀.node? id = some n := by
    intro id hid
    obtain ⟨n, hn, -⟩ := hg.mem_sinks.1 hid
    exact ⟨n, hn⟩
  obtain ⟨os, g', made, hrun, h, -, hos, hall⟩ := lowers_make hg g₀.sinks hsinks g₀ [] (.start hg)
  refine ⟨⟨os⟩, g', ?_, h.numbered.numbersTell hos, hall⟩
  have hstep : lowerAll g₀ = (g₀.sinks.mapM lower >>= fun roots => pure ⟨roots⟩ : GraphM Program) g₀ := rfl
  rw [hstep, step_ok hrun]
  rfl

end Graph

end MatrixEngine
