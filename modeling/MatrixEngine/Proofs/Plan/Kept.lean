/-
What all changes of a graph keep.

In every graph that changes lead to, a node carries its number and comes after its inputs, and what it notes as a
consumer consumes it. The operators made for all nodes (`Graph.made`) have numbers of their own, since what is made for a
node takes the next ones. All of this is one invariant (`Graph.Kept`) with a lemma for each kind of change, from which it
holds after any changes (`Changes.kept`).
-/
import MatrixEngine.Proofs.Plan.Changes

namespace MatrixEngine

/-- what was made for a node -/
def Node.made (n : Node) : List Operator := (n.lowered.map Operator.stages).getD []

namespace Graph

variable {g g' : Graph} {id i : NodeId} {n n' : Node} {o : Operator}

/-! ## What was made for nodes -/

def made (g : Graph) : List Operator := g.nodes.toList.flatMap Node.made

theorem mem_made : o ∈ g.made ↔ ∃ i l, g.operator? i = some l ∧ o ∈ l.stages := by
  simp only [made, List.mem_flatMap, operator?_eq_some_iff]
  constructor
  · rintro ⟨n, hn, ho⟩
    obtain ⟨i, hi⟩ := Array.mem_iff_getElem?.1 (Array.mem_toList_iff.1 hn)
    cases hl : n.lowered with
    | none => simp [Node.made, hl] at ho
    | some l => exact ⟨⟨i⟩, l, ⟨n, hi, hl⟩, by simpa [Node.made, hl] using ho⟩
  · rintro ⟨i, l, ⟨n, hn, hl⟩, ho⟩
    exact ⟨n, Array.mem_toList_iff.2 (Array.mem_of_getElem? hn), by simpa [Node.made, hl] using ho⟩

theorem made_of_map (h : g'.nodes.map Node.made = g.nodes.map Node.made) : g'.made = g.made := by
  have hflat : ∀ g : Graph, g.made = (g.nodes.map Node.made).toList.flatten := by
    intro g
    rw [made, Array.toList_map, List.flatMap_def]
  rw [hflat, h, ← hflat]

theorem made_of_outline (h : g'.outline = g.outline) : g'.made = g.made := by
  have hmap : ∀ g : Graph, g.nodes.map Node.made = g.outline.nodes.map Node.made := by
    intro g
    rw [outline, Array.map_map]
    rfl
  exact made_of_map (by rw [hmap, h, ← hmap])

theorem made_attach (g : Graph) (name : String) (kind : NodeKind) (size : SizeInfo) (inputs : List NodeId)
    (position : Position) : (g.attach name kind size inputs position).made = g.made ∧
      (g.attach name kind size inputs position).nextOperator = g.nextOperator := by
  have hparent : ∀ n, (addParent ⟨g.nodes.size⟩ n).made = n.made := by
    intro n
    obtain ⟨ps, hparents, -⟩ := addParent_eq ⟨g.nodes.size⟩ n
    rw [hparents]
    rfl
  have hfold : ∀ (is : List NodeId) (g' : Graph),
      (is.foldl (fun g' i => g'.update i (addParent ⟨g.nodes.size⟩)) g').made = g'.made ∧
      (is.foldl (fun g' i => g'.update i (addParent ⟨g.nodes.size⟩)) g').nextOperator = g'.nextOperator := by
    intro is
    induction is with
    | nil => exact fun _ => ⟨rfl, rfl⟩
    | cons i is ih =>
      intro g'
      obtain ⟨hmade, hnext⟩ := ih (g'.update i (addParent ⟨g.nodes.size⟩))
      exact ⟨hmade.trans (made_of_map (g'.map_update i hparent)), hnext⟩
  obtain ⟨hmade, hnext⟩ := hfold inputs (g.push name kind size inputs position)
  refine ⟨?_, hnext⟩
  rw [attach, hmade, made, push, Array.toList_push, List.flatMap_append]
  exact List.append_nil _

/-- noting an operator at a node without one adds what was made for it -/
theorem made_note (hn : g.node? id = some n) (hnone : n.lowered = none) (o : Operator) :
    (g.note id o).made.Perm (o.stages ++ g.made) := by
  have hget : g.nodes.toList[id.index]? = some n := Array.getElem?_toList.trans hn
  obtain ⟨hlt, hval⟩ := List.getElem?_eq_some_iff.1 hget
  set before := g.nodes.toList.take id.index
  set after := g.nodes.toList.drop (id.index + 1)
  have hold : g.made = before.flatMap Node.made ++ after.flatMap Node.made := by
    have hsplit : g.nodes.toList = before ++ n :: after := by
      rw [← hval, List.cons_getElem_drop_succ, List.take_append_drop]
    rw [made, hsplit, List.flatMap_append, List.flatMap_cons]
    simp [Node.made, hnone]
  have hnew : (g.note id o).made = before.flatMap Node.made ++ (o.stages ++ after.flatMap Node.made) := by
    have hsplit : (g.note id o).nodes.toList = before ++ { n with lowered := some o } :: after := by
      change (g.nodes.modify id.index _).toList = _
      rw [Array.toList_modify, List.modify_eq_take_cons_drop hlt, hval]
    rw [made, hsplit, List.flatMap_append, List.flatMap_cons]
    rfl
  rw [hold, hnew]
  exact List.perm_append_comm_assoc _ _ _

/-! ## The invariant -/

/-- what holds of every graph that changes lead to -/
structure Kept (g : Graph) : Prop where
  /-- a node carries its number -/
  id : ∀ {i n}, g.node? i = some n → n.id = i
  /-- a node comes after its inputs -/
  earlier : ∀ {i n}, g.node? i = some n → ∀ p ∈ n.inputs, p.index < i.index
  source : ∀ {i n}, g.node? i = some n → n.kind = .input → n.inputs = []
  /-- what a node notes as its consumer consumes it -/
  consumer : ∀ {i n p}, g.node? i = some n → p ∈ n.parents → ∃ m, g.node? p = some m ∧ i ∈ m.inputs
  /-- an operator is noted at a node for which it was made -/
  noted : ∀ {i n o}, g.node? i = some n → n.lowered = some o → ∃ k, g.MadeFor k n o
  nodup : (g.made.map (·.number)).Nodup
  below : ∀ o ∈ g.made, o.number < g.nextOperator

theorem kept_ofConfig (config : PlannerConfig) : (ofConfig config).Kept := by
  have hnone : ∀ i, (ofConfig config).node? i = none := fun _ => rfl
  have hmade : (ofConfig config).made = [] := rfl
  constructor <;> simp [hnone, hmade]

theorem Kept.adjust (hg : g.Kept) (h : g'.outline = g.outline) : g'.Kept := by
  have hback : ∀ {i n'}, g'.node? i = some n' → ∃ n, g.node? i = some n ∧ n'.outline = n.outline := by
    intro i n' hn'
    obtain ⟨n, hn, hout⟩ := node_of_outline h.symm hn'
    exact ⟨n, hn, hout.symm⟩
  have hmade : g'.made = g.made := made_of_outline h
  have hnext : g'.nextOperator = g.nextOperator := show g'.outline.nextOperator = g.outline.nextOperator by rw [h]
  refine ⟨fun hn' => ?_, fun hn' => ?_, fun hn' => ?_, fun hn' hp => ?_, fun hn' ho => ?_, hmade ▸ hg.nodup,
    hmade ▸ hnext ▸ hg.below⟩ <;> obtain ⟨n, hn, hout⟩ := hback hn' <;>
    obtain ⟨hid, hkind, hinputs, hparents, hlowered⟩ := Node.of_outline hout
  · exact hid.trans (hg.id hn)
  · rw [hinputs]
    exact hg.earlier hn
  · rw [hkind, hinputs]
    exact hg.source hn
  · obtain ⟨m, hm, hi⟩ := hg.consumer hn (hparents ▸ hp)
    obtain ⟨m', hm', hout'⟩ := node_of_outline h hm
    exact ⟨m', hm', (Node.of_outline hout').2.2.1 ▸ hi⟩
  · obtain ⟨k, hmade⟩ := hg.noted hn (hlowered ▸ ho)
    exact ⟨k, hmade.of_same hkind hinputs fun i a ha => Changes.operator? (.single (.adjust h)) ha⟩

/-- a node of a graph with a new one is the new one, or an old one with the new one among its consumers at most -/
theorem node_of_attach {inputs : List NodeId} (hin : ∀ i ∈ inputs, ∃ m, g.node? i = some m) {name : String}
    {kind : NodeKind} {size : SizeInfo} {position : Position}
    (h : (g.attach name kind size inputs position).node? i = some n') :
    (i = ⟨g.nodes.size⟩ ∧ n' = { id := ⟨g.nodes.size⟩, name, kind, size, inputs, parents := [], position }) ∨
    ∃ n, g.node? i = some n ∧ n'.id = n.id ∧ n'.kind = n.kind ∧ n'.inputs = n.inputs ∧ n'.lowered = n.lowered ∧
      ∀ p ∈ n'.parents, p ∈ n.parents ∨ p = ⟨g.nodes.size⟩ ∧ i ∈ inputs := by
  rw [node?_attach hin] at h
  split_ifs at h with hnew hmem
  · exact .inl ⟨hnew, (Option.some.inj h).symm⟩
  · obtain ⟨n, hn, rfl⟩ := Option.map_eq_some_iff.1 h
    obtain ⟨ps, hparents, hps⟩ := addParent_eq ⟨g.nodes.size⟩ n
    rw [hparents]
    refine .inr ⟨n, hn, rfl, rfl, rfl, rfl, fun p hp => ?_⟩
    rcases (hps p).1 hp with rfl | hp
    · exact .inr ⟨rfl, hmem⟩
    · exact .inl hp
  · exact .inr ⟨n', h, rfl, rfl, rfl, rfl, fun p hp => .inl hp⟩

theorem Kept.attach (hg : g.Kept) {inputs : List NodeId} (hin : ∀ i ∈ inputs, ∃ m, g.node? i = some m) {name : String}
    {kind : NodeKind} {size : SizeInfo} {position : Position} (hsource : kind = .input → inputs = []) :
    (g.attach name kind size inputs position).Kept := by
  have hchange : Changes g (g.attach name kind size inputs position) := .single (.attach hin hsource)
  obtain ⟨hmade, hnext⟩ := made_attach g name kind size inputs position
  refine ⟨fun {i n'} hn' => ?_, fun {i n'} hn' p hp => ?_, fun {i n'} hn' hkind' => ?_, fun {i n' p} hn' hp => ?_,
    fun {i n' o} hn' ho => ?_, hmade ▸ hg.nodup, hmade ▸ hnext ▸ hg.below⟩ <;>
    rcases node_of_attach hin hn' with ⟨rfl, rfl⟩ | ⟨n, hn, hid, hkind, hinputs, hlowered, hparents⟩
  · rfl
  · exact hid.trans (hg.id hn)
  · obtain ⟨m, hm⟩ := hin p hp
    exact node?_eq_some_lt hm
  · exact hg.earlier hn p (hinputs ▸ hp)
  · exact hsource hkind'
  · exact hinputs.trans (hg.source hn (hkind ▸ hkind'))
  · cases hp
  · rcases hparents p hp with hp | ⟨rfl, hi⟩
    · obtain ⟨m, hm, hi⟩ := hg.consumer hn hp
      obtain ⟨m', hm', -, hinputs', -⟩ := hchange.keeps hm
      exact ⟨m', hm', hinputs' ▸ hi⟩
    · exact ⟨_, (node?_attach hin name kind size position _).trans (if_pos rfl), hi⟩
  · cases ho
  · obtain ⟨k, hmade⟩ := hg.noted hn (hlowered ▸ ho)
    exact ⟨k, hmade.of_same hkind hinputs fun i a ha => hchange.operator? ha⟩

theorem node_of_note (h : (g.note id o).node? i = some n') : ∃ n, g.node? i = some n ∧ n'.id = n.id ∧
    n'.kind = n.kind ∧ n'.inputs = n.inputs ∧ n'.parents = n.parents ∧
    (n'.lowered = n.lowered ∨ i = id ∧ n'.lowered = some o) := by
  rw [node?_note] at h
  split_ifs at h with hid
  · obtain ⟨n, hn, rfl⟩ := Option.map_eq_some_iff.1 h
    exact ⟨n, hn, rfl, rfl, rfl, rfl, .inr ⟨hid.symm, rfl⟩⟩
  · exact ⟨n', h, rfl, rfl, rfl, rfl, .inl rfl⟩

/-- numbers that are taken from the next one on are new -/
theorem Kept.nodup_note (hg : g.Kept) (ho : g.MadeFor g.nextOperator n o) :
    ((o.stages ++ g.made).map (·.number)).Nodup := by
  rw [List.map_append, List.nodup_append]
  refine ⟨ho.nodup_stages, hg.nodup, fun a ha b hb => ?_⟩
  obtain ⟨x, hx, rfl⟩ := List.mem_map.1 ha
  obtain ⟨y, hy, rfl⟩ := List.mem_map.1 hb
  have hle := (ho.number_stages hx).1
  have hlt := hg.below y hy
  omega

theorem Kept.note (hg : g.Kept) (hn : g.node? id = some n) (hnone : n.lowered = none)
    (ho : g.MadeFor g.nextOperator n o) : (g.note id o).Kept := by
  have hchange : Changes g (g.note id o) := .single (.note hn hnone ho)
  have hmade := made_note hn hnone o
  refine ⟨fun hn' => ?_, fun hn' => ?_, fun hn' => ?_, fun hn' hp => ?_, fun hn' ho' => ?_,
    (hmade.map _).nodup_iff.2 (hg.nodup_note ho), fun x hx => ?_⟩
  · obtain ⟨m, hm, hid, -⟩ := node_of_note hn'
    exact hid.trans (hg.id hm)
  · obtain ⟨m, hm, -, -, hinputs, -⟩ := node_of_note hn'
    rw [hinputs]
    exact hg.earlier hm
  · obtain ⟨m, hm, -, hkind, hinputs, -⟩ := node_of_note hn'
    rw [hkind, hinputs]
    exact hg.source hm
  · obtain ⟨m, hm, -, -, -, hparents, -⟩ := node_of_note hn'
    obtain ⟨c, hc, hi⟩ := hg.consumer hm (hparents ▸ hp)
    obtain ⟨c', hc', -, hinputs, -⟩ := hchange.keeps hc
    exact ⟨c', hc', hinputs ▸ hi⟩
  · obtain ⟨m, hm, -, hkind, hinputs, -, hlowered⟩ := node_of_note hn'
    rcases hlowered with hsame | ⟨rfl, hnew⟩
    · obtain ⟨k, hmade⟩ := hg.noted hm (hsame ▸ ho')
      exact ⟨k, hmade.of_same hkind hinputs fun i a ha => hchange.operator? ha⟩
    · obtain rfl := Option.some.inj (hn.symm.trans hm)
      obtain rfl := Option.some.inj (hnew.symm.trans ho')
      exact ⟨_, ho.of_same hkind hinputs fun i a ha => hchange.operator? ha⟩
  · change x.number < g.nextOperator + o.stages.length
    rcases List.mem_append.1 (hmade.mem_iff.1 hx) with hx | hx
    · exact (ho.number_stages hx).2
    · exact (hg.below x hx).trans_le (Nat.le_add_right _ _)

/-- **A change keeps all of this.** -/
theorem Change.kept (h : Change g g') (hg : g.Kept) : g'.Kept := by
  cases h with
  | adjust hsame => exact hg.adjust hsame
  | attach hin hsource => exact hg.attach hin hsource
  | note hn hnone ho => exact hg.note hn hnone ho

theorem Changes.kept (h : Changes g g') (hg : g.Kept) : g'.Kept := by
  induction h with
  | refl => exact hg
  | tail _ hlast ih => exact hlast.kept ih

/-- the operators made so far are told apart by their numbers, and their inputs are among them -/
theorem Kept.numbered (hg : g.Kept) : Operator.Numbered g.made g.nextOperator := by
  refine ⟨hg.below, fun a ha b hb hab => List.inj_on_of_nodup_map hg.nodup ha hb hab, fun o ho x hx => ?_⟩
  obtain ⟨i, l, hl, ho⟩ := mem_made.1 ho
  obtain ⟨n, hn, hlowered⟩ := operator?_eq_some_iff.1 hl
  obtain ⟨k, hmade⟩ := hg.noted hn hlowered
  rcases hmade.inputs ho hx with hx | ⟨j, hj⟩
  · exact mem_made.2 ⟨i, l, hl, hx⟩
  · exact mem_made.2 ⟨j, x, hj, x.mem_stages⟩

end Graph

end MatrixEngine
