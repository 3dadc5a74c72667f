/-
What estimates and placements a graph answers with, apart from what it has noted of them.

`Graph.unplaced` is a graph without what placing notes, and `Graph.bare` one without operators either. An estimate follows
from the bare graph, and so does a placement that is decided anew (`placedAnew`); a placement noted at a node without a flag
is answered as it is (`placing`). As long as the inputs of nodes are in the graph, estimating and placing succeed with these
values (`place_answers`), whatever the settings, and settle: nothing but estimates and placements changes, and no later
answer about a placement (`Settles`).
-/
import MatrixEngine.Plan.Lowering
import MatrixEngine.Proofs.Plan.Built

namespace MatrixEngine

/-- a node without estimates and placement, and without the flag to place it again -/
def Node.unplaced (n : Node) : Node := { n.forget with recompile := false }

/-- a node without anything derived for it but its size -/
def Node.bare (n : Node) : Node := { n.unplaced with lowered := none }

theorem Node.of_bare {n n₀ : Node} (h : n.bare = n₀.bare) : n.name = n₀.name ∧ n.kind = n₀.kind ∧ n.size = n₀.size ∧
    n.inputs = n₀.inputs ∧ n.position = n₀.position := by
  refine ⟨?_, ?_, ?_, ?_, ?_⟩
  · exact show n.bare.name = n₀.bare.name by rw [h]
  · exact show n.bare.kind = n₀.bare.kind by rw [h]
  · exact show n.bare.size = n₀.bare.size by rw [h]
  · exact show n.bare.inputs = n₀.bare.inputs by rw [h]
  · exact show n.bare.position = n₀.bare.position by rw [h]

theorem Node.forced_of_bare {n n₀ : Node} (h : n.bare = n₀.bare) : n.forced = n₀.forced :=
  show n.bare.forced = n₀.bare.forced by rw [h]

namespace Graph

variable {β γ : Type} {g g' g'' : Graph} {id i : NodeId} {n n' : Node}

/-- a graph without estimates and placements -/
def unplaced (g : Graph) : Graph := { g with nodes := g.nodes.map Node.unplaced }

theorem unplaced_update (id : NodeId) {f : Node → Node} (hf : ∀ n, (f n).unplaced = n.unplaced) :
    (g.update id f).unplaced = g.unplaced := by
  have hnodes : (g.update id f).nodes.map Node.unplaced = g.nodes.map Node.unplaced := g.map_update id hf
  simp only [unplaced, hnodes]
  rfl

theorem node?_unplaced (g : Graph) (id : NodeId) : g.unplaced.node? id = (g.node? id).map Node.unplaced :=
  Array.getElem?_map

/-- graphs that differ in estimates and placements only have the same nodes up to these -/
theorem node_of_unplaced (h : g'.unplaced = g.unplaced) (hn : g.node? id = some n) :
    ∃ n', g'.node? id = some n' ∧ n'.unplaced = n.unplaced := node_of_map (congrArg nodes h) hn

/-- a graph without anything derived for its nodes but their sizes -/
def bare (g : Graph) : Graph := { g with nodes := g.nodes.map Node.bare, nextOperator := 0 }

theorem node?_bare (g : Graph) (id : NodeId) : g.bare.node? id = (g.node? id).map Node.bare := Array.getElem?_map

theorem node_of_bare (h : g'.bare = g.bare) (hn : g.node? id = some n) :
    ∃ n', g'.node? id = some n' ∧ n'.bare = n.bare := node_of_map (congrArg nodes h) hn

theorem node?_eq_none_of_bare (h : g'.bare = g.bare) (hn : g.node? id = none) : g'.node? id = none := by
  have hmap := node?_bare g' id
  rw [h, node?_bare, hn] at hmap
  exact Option.map_eq_none_iff.1 hmap.symm

theorem bare_of_unplaced (h : g'.unplaced = g.unplaced) : g'.bare = g.bare := by
  have hbare : ∀ g : Graph, g.bare = g.unplaced.bare := by
    intro g
    simp only [bare, unplaced, Array.map_map]
    rfl
  rw [hbare, h, ← hbare]

def InputsIn (g : Graph) (n : Node) : Prop := ∀ i ∈ n.inputs, ∃ m, g.node? i = some m

theorem inputsIn_of_earlier (hn : g.node? id = some n) (h : ∀ i ∈ n.inputs, i.index < id.index) : g.InputsIn n := by
  intro i hi
  have hlt : i.index < g.nodes.size := (h i hi).trans (node?_eq_some_lt hn)
  exact ⟨g.nodes[i.index], Array.getElem?_eq_getElem hlt⟩

theorem InputsIn.of_bare (hin : g.InputsIn n) (h : g'.bare = g.bare) (hn : n'.bare = n.bare) : g'.InputsIn n' := by
  intro i hi
  obtain ⟨-, -, -, hinputs, -⟩ := Node.of_bare hn
  obtain ⟨m, hm⟩ := hin i (hinputs ▸ hi)
  obtain ⟨m', hm', -⟩ := node_of_bare h hm
  exact ⟨m', hm'⟩

/-! ## Estimates and placements without notes -/

def outputBytesAt (g : Graph) (id : NodeId) : Nat := ((g.node? id).map g.outputBytesOf).getD 0

def memoryOf (g : Graph) (n : Node) : Nat :=
  n.inputs.foldl (fun total i => saturatingAdd total (g.outputBytesAt i)) (g.outputBytesOf n)

def decided (g : Graph) (n : Node) : Placement :=
  match g.config.strategy with
  | .memoryBased => if g.memoryOf n < g.config.localBudget then .local else .distributed
  | .heuristic => if g.smallInput n then .local else .distributed

/-- where a node is placed by a decision taken anew -/
def placedAnew (g : Graph) (n : Node) : Placement :=
  match n.kind, n.forced <|> g.config.forced with
  | .input, _ => .local
  | .reorg _, some p => p
  | .reorg _, none => g.decided n

/-- where a node is placed: where it is noted to be, unless it is flagged -/
def placing (g : Graph) (n : Node) : Placement :=
  match n.placement, n.recompile with
  | some p, false => p
  | _, _ => g.placedAnew n

def placing? (g : Graph) (id : NodeId) : Option Placement := (g.node? id).map g.placing

/-! They follow from the bare graph and the bare node. -/

/-- what follows from bare graphs and nodes is the same where these are -/
theorem congr_of_bare {F : Graph → Node → β} (hF : ∀ g n, F g.bare n.bare = F g n) (h : g'.bare = g.bare)
    (hn : n'.bare = n.bare) : F g' n' = F g n := by
  rw [← hF, h, hn, hF]

theorem outputBytesOf_bare (g : Graph) (n : Node) : g.bare.outputBytesOf n.bare = g.outputBytesOf n := by
  have hkind : n.bare.kind = n.kind := rfl
  unfold outputBytesOf
  rw [hkind]
  cases n.kind with
  | input => rfl
  | reorg op =>
    have hinputs : n.bare.inputs = n.inputs := rfl
    dsimp only
    rw [hinputs]
    cases n.inputs.head? with
    | none => rfl
    | some first =>
      simp only [Option.bind_eq_bind, Option.bind_some, node?_bare]
      cases g.node? first <;> rfl

theorem outputBytesAt_bare (g : Graph) (id : NodeId) : g.bare.outputBytesAt id = g.outputBytesAt id := by
  rw [outputBytesAt, node?_bare, Option.map_map, Function.comp_def]
  simp only [outputBytesOf_bare]
  rfl

theorem outputBytesAt_congr (h : g'.bare = g.bare) : g'.outputBytesAt = g.outputBytesAt := by
  funext id
  rw [← outputBytesAt_bare, h, outputBytesAt_bare]

theorem memoryOf_bare (g : Graph) (n : Node) : g.bare.memoryOf n.bare = g.memoryOf n := by
  rw [memoryOf, outputBytesOf_bare]
  simp only [outputBytesAt_bare]
  rfl

theorem smallInput_bare (g : Graph) (n : Node) : g.bare.smallInput n.bare = g.smallInput n := by
  have hinputs : n.bare.inputs = n.inputs := rfl
  unfold smallInput
  rw [hinputs]
  cases n.inputs.head? with
  | none => rfl
  | some first =>
    simp only [Option.bind_some, node?_bare]
    cases g.node? first <;> rfl

theorem decided_bare (g : Graph) (n : Node) : g.bare.decided n.bare = g.decided n := by
  unfold decided
  rw [memoryOf_bare, smallInput_bare]
  rfl

theorem placedAnew_bare (g : Graph) (n : Node) : g.bare.placedAnew n.bare = g.placedAnew n := by
  unfold placedAnew
  rw [decided_bare]
  rfl

theorem placing_congr (h : g'.bare = g.bare) (n : Node) : g'.placing n = g.placing n := by
  unfold placing
  rw [congr_of_bare placedAnew_bare h rfl]

/-- a node of one of two graphs with the same bare nodes and answers about placements, in the other -/
theorem node_of_same (hbare : g'.bare = g.bare) (hplacing : ∀ i, g'.placing? i = g.placing? i)
    (hn : g.node? i = some n) : ∃ n', g'.node? i = some n' ∧ n'.bare = n.bare ∧ g'.placing n' = g.placing n := by
  obtain ⟨n', hn', hsame⟩ := node_of_bare hbare hn
  have hp := hplacing i
  rw [placing?, placing?, hn', hn] at hp
  exact ⟨n', hn', hsame, Option.some.inj hp⟩

theorem placing_of_open (h : n.placement = none ∨ n.recompile = true) : g.placing n = g.placedAnew n := by
  unfold placing
  rcases h with h | h
  · rw [h]
  · rw [h]
    cases n.placement <;> rfl

/-! ## Settling -/

/-- nothing but estimates and placements changes, and no answer about a placement -/
structure Settles (g g' : Graph) : Prop where
  unplaced : g'.unplaced = g.unplaced
  placing : ∀ i, g'.placing? i = g.placing? i

namespace Settles

theorem refl (g : Graph) : Settles g g := ⟨rfl, fun _ => rfl⟩

theorem trans (h : Settles g g') (h' : Settles g' g'') : Settles g g'' :=
  ⟨h'.unplaced.trans h.unplaced, fun i => (h'.placing i).trans (h.placing i)⟩

theorem bare (h : Settles g g') : g'.bare = g.bare := bare_of_unplaced h.unplaced

theorem node (h : Settles g g') (hn : g.node? i = some n) :
    ∃ n', g'.node? i = some n' ∧ n'.bare = n.bare ∧ g'.placing n' = g.placing n := node_of_same h.bare h.placing hn

/-- a note at a node settles if it keeps the answer about its placement -/
theorem update {f : Node → Node} (hf : ∀ n, (f n).unplaced = n.unplaced)
    (hp : ∀ n, g.node? id = some n → g.placing (f n) = g.placing n) : Settles g (g.update id f) := by
  have hsame := unplaced_update (g := g) id hf
  refine ⟨hsame, fun i => ?_⟩
  have hgraph : (g.update id f).placing = g.placing := funext (placing_congr (bare_of_unplaced hsame))
  rw [placing?, placing?, hgraph, node?_update]
  split_ifs with hid
  · subst hid
    cases hn : g.node? id with
    | none => rfl
    | some n => exact congrArg some (hp n hn)
  · rfl

end Settles

/-- a step that answers with a value and settles -/
def Answers (m : GraphM β) (g : Graph) (b : β) : Prop := ∃ g', m g = .ok b g' ∧ Settles g g'

namespace Answers

variable {m : GraphM β} {f : β → GraphM γ} {b : β} {c : γ}

theorem pure (b : β) (g : Graph) : Answers (Pure.pure b) g b := ⟨g, rfl, .refl g⟩

theorem bind (hm : Answers m g b) (hf : ∀ g', Settles g g' → Answers (f b) g' c) : Answers (m >>= f) g c := by
  obtain ⟨g₁, hm, h₁⟩ := hm
  obtain ⟨g₂, hf, h₂⟩ := hf g₁ h₁
  exact ⟨g₂, (step_ok hm).trans hf, h₁.trans h₂⟩

theorem of_node {f : Node → GraphM γ} (hn : g.node? id = some n) (hf : Answers (f n) g c) :
    Answers (node id >>= f) g c := by
  obtain ⟨g', hf, h⟩ := hf
  exact ⟨g', (step_ok (node_ok hn)).trans hf, h⟩

theorem of_get {f : Graph → GraphM γ} (hf : Answers (f g) g c) : Answers (get >>= f) g c := hf

theorem update {f : Node → Node} (hf : ∀ n, (f n).unplaced = n.unplaced)
    (hp : ∀ n, g.node? id = some n → g.placing (f n) = g.placing n) (b : β) :
    Answers (do modify (·.update id f); return b) g b := ⟨g.update id f, rfl, .update hf hp⟩

end Answers

theorem outputBytes_answers (hn : g.node? id = some n) : Answers (outputBytes id) g (g.outputBytesOf n) :=
  .of_node hn ⟨_, rfl, .update (fun _ => rfl) fun _ _ => rfl⟩

theorem total_answers (is : List NodeId) (total : Nat) (his : ∀ i ∈ is, ∃ m, g.node? i = some m) :
    Answers (is.foldlM (fun total i => do return saturatingAdd total (← outputBytes i)) total) g
      (is.foldl (fun total i => saturatingAdd total (g.outputBytesAt i)) total) := by
  induction is generalizing total g with
  | nil => exact .pure total g
  | cons i is ih =>
    obtain ⟨m, hm⟩ := his i List.mem_cons_self
    have hat : g.outputBytesAt i = g.outputBytesOf m := by rw [outputBytesAt, hm]; rfl
    rw [List.foldlM_cons, List.foldl_cons, hat]
    have hfirst : Answers (do return saturatingAdd total (← outputBytes i)) g (saturatingAdd total (g.outputBytesOf m)) :=
      (outputBytes_answers hm).bind fun g' _ => .pure _ g'
    refine hfirst.bind fun g' hg' => ?_
    rw [← outputBytesAt_congr hg'.bare]
    refine ih _ fun j hj => ?_
    obtain ⟨m, hm⟩ := his j (List.mem_cons_of_mem i hj)
    obtain ⟨m', hm', -⟩ := hg'.node hm
    exact ⟨m', hm'⟩

theorem memoryBytes_answers (hn : g.node? id = some n) (hin : g.InputsIn n) :
    Answers (memoryBytes id) g (g.memoryOf n) := by
  unfold memoryBytes
  refine .of_node hn ((outputBytes_answers hn).bind fun g₁ h₁ => ?_)
  have htotal := total_answers n.inputs (g.outputBytesOf n) (hin.of_bare h₁.bare rfl)
  rw [outputBytesAt_congr h₁.bare] at htotal
  refine htotal.bind fun g₂ _ => .update ?_ ?_ _
  · exact fun _ => rfl
  · exact fun _ _ => rfl

/-- what the strategy decides for a node, noting estimates on the way -/
theorem decide_answers {m : Node} (hm : g.node? id = some m) (hin : g.InputsIn m) (hsame : m.bare = n.bare) :
    Answers (decide id n) g (g.decided n) := by
  have hmemory : g.memoryOf m = g.memoryOf n := congr_of_bare memoryOf_bare rfl hsame
  unfold decide decided
  refine .of_get ?_
  cases g.config.strategy with
  | memoryBased =>
    have hbytes := memoryBytes_answers hm hin
    rw [hmemory] at hbytes
    exact hbytes.bind fun g' _ => .pure _ g'
  | heuristic => exact .pure _ g

/-- a node that is open is flagged without an answer changing, and decided -/
theorem placeAnew_answers (hn : g.node? id = some n) (hin : g.InputsIn n)
    (hopen : n.placement = none ∨ n.recompile = true) : Answers (placeAnew id n) g (g.placedAnew n) := by
  unfold placeAnew placedAnew
  refine .of_get ?_
  dsimp only
  cases n.kind with
  | input => exact .pure _ g
  | reorg op =>
    cases n.forced <|> g.config.forced with
    | some p => exact .pure p g
    | none =>
      cases !n.size.dimsKnown && g.config.recompile with
      | false => exact decide_answers hn hin rfl
      | true =>
        have hflag : Settles g (g.update id fun n => { n with recompile := true }) := by
          refine .update (fun _ => rfl) fun m hm => ?_
          obtain rfl := Option.some.inj (hn.symm.trans hm)
          rw [placing_of_open hopen, placing_of_open (Or.inr rfl)]
          exact congr_of_bare placedAnew_bare rfl rfl
        have hstep : Answers (modify (·.update id fun n => { n with recompile := true }) : GraphM PUnit) g ⟨⟩ :=
          ⟨_, rfl, hflag⟩
        refine hstep.bind fun g' hg' => ?_
        obtain ⟨m, hm, hsame, -⟩ := hg'.node hn
        have hdecided : g'.decided n = g.decided n := congr_of_bare decided_bare hg'.bare rfl
        exact hdecided ▸ decide_answers hm (hin.of_bare hg'.bare hsame) hsame

/-- **Placing a node answers with its placement and settles**, whatever the settings. -/
theorem place_answers (hn : g.node? id = some n) (hin : g.InputsIn n) : Answers (place id) g (g.placing n) := by
  unfold place
  refine .of_node hn ?_
  have hanew : n.placement = none ∨ n.recompile = true → Answers (placeAnew id n >>= fun p => do
      modify (·.update id fun n => { n with placement := some p })
      return p) g (g.placing n) := by
    intro hopen
    rw [placing_of_open hopen]
    refine (placeAnew_answers hn hin hopen).bind fun g' hg' => .update ?_ ?_ _
    · exact fun _ => rfl
    · intro m hm
      obtain ⟨m', hm', hsame, hplacing⟩ := hg'.node hn
      obtain rfl := Option.some.inj (hm.symm.trans hm')
      -- what is noted is the answer of before, and so is what a flag beside it would have decided anew
      have hanew : g'.placedAnew m = g.placedAnew n := congr_of_bare placedAnew_bare hg'.bare hsame
      rw [hplacing, placing_of_open hopen]
      unfold placing
      cases m.recompile with
      | false => rfl
      | true => exact hanew
  cases hp : n.placement with
  | none => exact hanew (.inl hp)
  | some p =>
    cases hr : n.recompile with
    | false =>
      have hnoted : g.placing n = p := by
        unfold placing
        rw [hp, hr]
      exact hnoted ▸ .pure _ g
    | true => exact hanew (.inr hr)

/-! ## Quiet steps -/

/-- a step that succeeds and changes nothing but estimates and placements -/
def Quiet (m : GraphM β) (g : Graph) : Prop := ∃ b g', m g = .ok b g' ∧ g'.unplaced = g.unplaced

theorem Answers.quiet {m : GraphM β} {b : β} (h : Answers m g b) : Quiet m g := by
  obtain ⟨g', hm, hg'⟩ := h
  exact ⟨b, g', hm, hg'.unplaced⟩

theorem outputBytes_quiet (hn : g.node? id = some n) : Quiet (outputBytes id) g := (outputBytes_answers hn).quiet

theorem memoryBytes_quiet (hn : g.node? id = some n) (hin : g.InputsIn n) : Quiet (memoryBytes id) g :=
  (memoryBytes_answers hn hin).quiet

theorem place_quiet (hn : g.node? id = some n) (hin : g.InputsIn n) : Quiet (place id) g := (place_answers hn hin).quiet

end Graph

end MatrixEngine
