/-
Described graphs.

A description is accepted if its placements parse, it has nodes, their names are distinct and each reorganisation names
an earlier node as its input (`Descriptor.Accepted`).
- `Follows.add_ok`, `Follows.add_error`: adding a node to the graph of the nodes before it succeeds exactly if the node
  fits them, and leaves the graph of these and the node (`Follows`).
- `addAll_cases`: so adding all nodes succeeds exactly if they are coherent.
- `build_accepted`: a description is built exactly if it is accepted, its graph is as described, and lowers.
-/
import MatrixEngine.Plan.Descriptor
import MatrixEngine.Proofs.Plan.Forced
import MatrixEngine.Proofs.Sequence

namespace MatrixEngine

/-! ## Descriptions that are accepted -/

def Parses (text : String) : Prop := ∃ p, Placement.parse text = .ok p

/-- the input of a reorganisation is one of the nodes before, and its placement parses -/
def DescribedNode.Grounded (before : List DescribedNode) (d : DescribedNode) : Prop :=
  ∀ name op input placement, d = .reorg name op input placement →
    input ∈ before.map DescribedNode.name ∧ ∀ text, placement = some text → Parses text

/-- a node that can be added after these: it is grounded on them, and its name is new -/
def DescribedNode.Fits (before : List DescribedNode) (d : DescribedNode) : Prop :=
  d.name ∉ before.map name ∧ d.Grounded before

/-- nodes with distinct names, of which the reorganisations name earlier ones, with placements that parse -/
structure Coherent (ds : List DescribedNode) : Prop where
  nodup : (ds.map DescribedNode.name).Nodup
  source : ∀ k name op input placement, ds[k]? = some (.reorg name op input placement) →
    input ∈ (ds.take k).map DescribedNode.name
  placement : ∀ name op input text, .reorg name op input (some text) ∈ ds → Parses text

/-- what a description has to be in order to be built -/
structure Descriptor.Accepted (d : Descriptor) : Prop where
  override : ∀ o text, d.overrides = some o → o.forced = some text → Parses text
  nonempty : d.nodes ≠ []
  coherent : Coherent d.nodes

variable {config : PlannerConfig} {ds : List DescribedNode} {d : DescribedNode}

theorem getElem?_concat_cases {k : Nat} {x : DescribedNode} (hk : (ds ++ [d])[k]? = some x) :
    (k < ds.length ∧ ds[k]? = some x) ∨ (k = ds.length ∧ x = d) := by
  rcases lt_or_ge k ds.length with hlt | hge
  · rw [List.getElem?_append_left hlt] at hk
    exact .inl ⟨hlt, hk⟩
  · have hlt := (List.getElem?_eq_some_iff.1 hk).1
    rw [List.length_append, List.length_singleton] at hlt
    obtain rfl : k = ds.length := by omega
    rw [List.getElem?_concat_length] at hk
    exact .inr ⟨rfl, (Option.some.inj hk).symm⟩

theorem coherent_nil : Coherent [] := ⟨List.nodup_nil, by simp, by simp⟩

/-- nodes are coherent if the last fits the others, which are coherent -/
theorem coherent_concat : Coherent (ds ++ [d]) ↔ Coherent ds ∧ d.Fits ds := by
  have hnames : ((ds ++ [d]).map DescribedNode.name).Nodup ↔
      (ds.map DescribedNode.name).Nodup ∧ d.name ∉ ds.map DescribedNode.name := by
    rw [List.map_append, List.map_cons, List.map_nil, List.nodup_append_comm, List.singleton_append, List.nodup_cons,
      and_comm]
  constructor
  · intro h
    obtain ⟨hnodup, hnew⟩ := hnames.1 h.nodup
    refine ⟨⟨hnodup, fun k name op input placement hk => ?_, fun name op input text hmem => ?_⟩, hnew, ?_⟩
    · have hlt : k < ds.length := (List.getElem?_eq_some_iff.1 hk).1
      have hsource := h.source k name op input placement ((List.getElem?_append_left hlt).trans hk)
      rwa [List.take_append_of_le_length hlt.le] at hsource
    · exact h.placement name op input text (List.mem_append_left _ hmem)
    · rintro name op input placement rfl
      have hsource := h.source ds.length name op input placement List.getElem?_concat_length
      rw [List.take_left] at hsource
      refine ⟨hsource, ?_⟩
      rintro text rfl
      exact h.placement name op input text (by simp)
  · rintro ⟨h, hnew, hfits⟩
    refine ⟨hnames.2 ⟨h.nodup, hnew⟩, fun k name op input placement hk => ?_, fun name op input text hmem => ?_⟩
    · rcases getElem?_concat_cases hk with ⟨hlt, hk⟩ | ⟨rfl, hd⟩
      · rw [List.take_append_of_le_length hlt.le]
        exact h.source k name op input placement hk
      · rw [List.take_left]
        exact (hfits name op input placement hd.symm).1
    · rcases List.mem_append.1 hmem with hmem | hmem
      · exact h.placement name op input text hmem
      · exact (hfits name op input (some text) (List.mem_singleton.1 hmem).symm).2 text rfl

/-! ## Settings -/

/-- the settings of a graph that is described, on top of the caller's -/
def Descriptor.settings (d : Descriptor) (base : PlannerConfig) : Except PlanError PlannerConfig :=
  match d.overrides with
  | some o => o.applyTo base
  | none => pure base

theorem placementOf_ok {text : String} {p : Placement} (h : Placement.parse text = .ok p) :
    placementOf text = .ok p := by
  rw [placementOf, h]
  rfl

theorem placementOf_error {text : String} (h : ¬ Parses text) : ∃ e, placementOf text = .error e := by
  cases hparse : Placement.parse text with
  | ok p => exact absurd ⟨p, hparse⟩ h
  | error s =>
    rw [placementOf, hparse]
    exact ⟨_, rfl⟩

theorem Overrides.applyTo_ok_iff {o : Overrides} {base : PlannerConfig} :
    (∃ config, o.applyTo base = .ok config) ↔ ∀ text, o.forced = some text → Parses text := by
  unfold applyTo
  cases o.forced with
  | none => exact ⟨fun _ _ h => (Option.some_ne_none _ h.symm).elim, fun _ => ⟨_, rfl⟩⟩
  | some text =>
    dsimp only
    constructor
    · rintro ⟨config, hconfig⟩ _ ⟨rfl⟩
      by_contra hparses
      obtain ⟨e, he⟩ := placementOf_error hparses
      rw [he] at hconfig
      cases hconfig
    · intro h
      obtain ⟨p, hp⟩ := h text rfl
      rw [placementOf_ok hp]
      exact ⟨_, rfl⟩

theorem Descriptor.settings_ok_iff {d : Descriptor} {base : PlannerConfig} : (∃ config, d.settings base = .ok config) ↔
    ∀ o text, d.overrides = some o → o.forced = some text → Parses text := by
  unfold settings
  cases d.overrides with
  | none => exact ⟨fun _ _ _ h => (Option.some_ne_none _ h.symm).elim, fun _ => ⟨base, rfl⟩⟩
  | some o =>
    refine Overrides.applyTo_ok_iff.trans ⟨?_, fun h text => h o text rfl⟩
    rintro h _ text ⟨rfl⟩
    exact h text

/-! ## Names -/

/-- the numbers of nodes by name, in the order of the description -/
def numbersOf (ds : List DescribedNode) : List (String × NodeId) := ds.zipIdx.map fun x => (x.1.name, ⟨x.2⟩)

theorem numbersOf_concat (ds : List DescribedNode) (d : DescribedNode) :
    numbersOf (ds ++ [d]) = numbersOf ds ++ [(d.name, ⟨ds.length⟩)] := by
  simp [numbersOf, List.zipIdx_append]

theorem names_numbersOf (ds : List DescribedNode) : (numbersOf ds).map Prod.fst = ds.map DescribedNode.name := by
  have hnames : Prod.fst ∘ (fun x : DescribedNode × Nat => (x.1.name, (⟨x.2⟩ : NodeId))) =
      DescribedNode.name ∘ Prod.fst := rfl
  rw [numbersOf, List.map_map, hnames, ← List.map_map, List.zipIdx_map_fst]

theorem lookup_numbersOf_cases {name : String} {i : NodeId} (h : (numbersOf ds).lookup name = some i) :
    ∃ d, ds[i.index]? = some d ∧ d.name = name := by
  obtain ⟨before, after, hsplit, -⟩ := List.lookup_eq_some_iff.1 h
  have hmem : (name, i) ∈ numbersOf ds := by simp [hsplit]
  obtain ⟨⟨d, k⟩, hd, heq⟩ := List.mem_map.1 hmem
  obtain ⟨rfl, rfl⟩ := Prod.mk.inj heq
  exact ⟨d, List.mk_mem_zipIdx_iff_getElem?.1 hd, rfl⟩

theorem lookup_numbersOf (hnodup : (ds.map DescribedNode.name).Nodup) {k : Nat} (hk : ds[k]? = some d) :
    (numbersOf ds).lookup d.name = some ⟨k⟩ := by
  have hmem : d.name ∈ ds.map DescribedNode.name := List.mem_map_of_mem (List.mem_of_getElem? hk)
  cases hlookup : (numbersOf ds).lookup d.name with
  | none => exact absurd (names_numbersOf ds ▸ hmem) (Sequence.lookup_eq_none_iff.1 hlookup)
  | some i =>
    obtain ⟨d', hd', hname⟩ := lookup_numbersOf_cases hlookup
    have hsame : (ds.map DescribedNode.name)[i.index]? = (ds.map DescribedNode.name)[k]? := by
      rw [List.getElem?_map, List.getElem?_map, hd', hk, Option.map_some, Option.map_some, hname]
    have hlt : i.index < (ds.map DescribedNode.name).length := by
      rw [List.length_map]
      exact (List.getElem?_eq_some_iff.1 hd').1
    rw [← (List.getElem?_inj hlt hnodup).1 hsame]

/-! ## Graphs of descriptions -/

/-- a node is as it is described, with the number by which its input is named -/
def DescribedNode.Describes (names : List (String × NodeId)) (block : Nat) (d : DescribedNode) (n : Node) : Prop :=
  n.name = d.name ∧
  match d with
  | .input _ rows cols nnz =>
    n.kind = .input ∧ n.size = ⟨rows, cols, block, block, nnz⟩ ∧ n.inputs = [] ∧ n.forced = none
  | .reorg _ op source placement => n.kind = .reorg op ∧ (∃ i, names.lookup source = some i ∧ n.inputs = [i]) ∧
    n.forced = placement.bind fun text => (Placement.parse text).toOption

/-- the graph of nodes that are described -/
structure Follows (config : PlannerConfig) (ds : List DescribedNode) (g : NamedGraph) : Prop where
  reached : g.graph.Reached config
  sound : g.graph.Sound
  settings : g.graph.config = config
  size : g.graph.nodes.size = ds.length
  names : g.names = numbersOf ds
  node : ∀ k d, ds[k]? = some d → ∃ n, g.graph.node? ⟨k⟩ = some n ∧ d.Describes g.names config.blockSize n

namespace NamedGraph

variable {g : NamedGraph}

theorem step_ok {β : Type} {m : GraphM β} {b : β} {graph : Graph} (h : m g.graph = .ok b graph) :
    g.step m = .ok (b, { g with graph := graph }) := by
  unfold step
  rw [EStateM.run, h]

theorem register_ok {name : String} {id : NodeId} (h : name ∉ g.names.map Prod.fst) :
    g.register name id = .ok { g with names := g.names ++ [(name, id)] } := by
  rw [register, Sequence.lookup_eq_none_iff.2 h]

theorem register_error {name : String} {id : NodeId} (h : name ∈ g.names.map Prod.fst) :
    g.register name id = .error (.invalid (.duplicateName name)) := by
  unfold register
  cases hlookup : g.names.lookup name with
  | none => exact absurd h (Sequence.lookup_eq_none_iff.1 hlookup)
  | some i => rfl

end NamedGraph

/-! ## Adding one node -/

/-- a node without its name and its force, and without what is derived of it but its size and its operator -/
def Node.nameless (n : Node) : Node := { n.unplaced with name := "", forced := none }

theorem Node.of_nameless {n n' : Node} (h : n'.nameless = n.nameless) : n'.id = n.id ∧ n'.kind = n.kind ∧
    n'.size = n.size ∧ n'.inputs = n.inputs ∧ n'.parents = n.parents ∧ n'.lowered = n.lowered := by
  refine ⟨?_, ?_, ?_, ?_, ?_, ?_⟩
  · exact show n'.nameless.id = n.nameless.id by rw [h]
  · exact show n'.nameless.kind = n.nameless.kind by rw [h]
  · exact show n'.nameless.size = n.nameless.size by rw [h]
  · exact show n'.nameless.inputs = n.nameless.inputs by rw [h]
  · exact show n'.nameless.parents = n.nameless.parents by rw [h]
  · exact show n'.nameless.lowered = n.nameless.lowered by rw [h]

namespace Graph

variable {g g' : Graph} {id : NodeId}

/-- a node fits into its graph whatever its name and its force are -/
theorem Sound.update (hg : g.Sound) (id : NodeId) {f : Node → Node} (hf : ∀ n, (f n).nameless = n.nameless) :
    (g.update id f).Sound := by
  have hmap : (g.update id f).nodes.map Node.nameless = g.nodes.map Node.nameless := g.map_update id hf
  constructor
  · intro i n' hn'
    obtain ⟨n, hn, hsame⟩ := node_of_map hmap.symm hn'
    obtain ⟨hid, -⟩ := Node.of_nameless hsame
    exact hid.symm.trans (hg.id hn)
  · intro i n' hn'
    obtain ⟨n, hn, hsame⟩ := node_of_map hmap.symm hn'
    obtain ⟨-, -, -, -, -, hlowered⟩ := Node.of_nameless hsame
    exact hlowered.symm.trans (hg.fresh hn)
  · intro i n' op hn' hkind'
    obtain ⟨n, hn, hsame⟩ := node_of_map hmap.symm hn'
    obtain ⟨-, hkind, hsize, hinputs, -⟩ := Node.of_nameless hsame
    obtain ⟨input, m, hinput, hlt, hm, hderived⟩ := hg.reorg hn (hkind.trans hkind')
    obtain ⟨m', hm', hsame'⟩ := node_of_map hmap hm
    obtain ⟨-, -, hsize', -⟩ := Node.of_nameless hsame'
    exact ⟨input, m', hinputs.symm.trans hinput, hlt, hm', by rw [hsize', hderived, hsize]⟩
  · intro i n' p hn' hp
    obtain ⟨n, hn, hsame⟩ := node_of_map hmap.symm hn'
    obtain ⟨-, -, -, -, hparents, -⟩ := Node.of_nameless hsame
    obtain ⟨m, op, hm, hkind, hinputs⟩ := hg.consumer hn (hparents ▸ hp)
    obtain ⟨m', hm', hsame'⟩ := node_of_map hmap hm
    obtain ⟨-, hkind', -, hinputs', -⟩ := Node.of_nameless hsame'
    exact ⟨m', op, hm', hkind'.trans hkind, hinputs'.trans hinputs⟩

theorem change_ok {n : Node} (hn : g.node? id = some n) (f : Node → Node) : change id f g = .ok () (g.update id f) :=
  step_ok (node_ok hn)

end Graph

theorem DescribedNode.Describes.mono {names more : List (String × NodeId)} {block : Nat} {n : Node}
    (h : d.Describes names block n) (ps : List NodeId) :
    d.Describes (names ++ more) block { n with parents := ps } := by
  obtain ⟨hname, h⟩ := h
  refine ⟨hname, ?_⟩
  cases d with
  | input => exact h
  | reorg =>
    obtain ⟨hkind, ⟨i, hlookup, hinputs⟩, hforced⟩ := h
    refine ⟨hkind, ⟨i, ?_, hinputs⟩, hforced⟩
    rw [List.lookup_append, hlookup]
    rfl

/-- a graph that has one more node than the one described so far -/
structure Grown (config : PlannerConfig) (ds : List DescribedNode) (g : NamedGraph) (graph : Graph) (n : Node) :
    Prop where
  reached : graph.Reached config
  sound : graph.Sound
  grows : g.graph.Extends graph
  size : graph.nodes.size = g.graph.nodes.size + 1
  node : graph.node? ⟨ds.length⟩ = some n

namespace Follows

variable {g : NamedGraph} {graph : Graph} {n : Node} {i : NodeId} {op : Reorg}

theorem empty (config : PlannerConfig) : Follows config [] ⟨Graph.ofConfig config, []⟩ :=
  ⟨⟨[], rfl⟩, Graph.sound_ofConfig config, rfl, rfl, rfl, by simp⟩

theorem names_eq (h : Follows config ds g) : g.names.map Prod.fst = ds.map DescribedNode.name := by
  rw [h.names, names_numbersOf]

theorem exists_lookup (h : Follows config ds g) {source : String} (hsource : source ∈ ds.map DescribedNode.name) :
    ∃ i, g.names.lookup source = some i := by
  rw [← Option.ne_none_iff_exists']
  intro hnone
  exact Sequence.lookup_eq_none_iff.1 hnone (h.names_eq ▸ hsource)

/-- a graph that has one more node, as described, follows the description with that node -/
theorem concat (h : Follows config ds g) (hgrown : Grown config ds g graph n)
    (hd : d.Describes g.names config.blockSize n) :
    Follows config (ds ++ [d]) { graph := graph, names := g.names ++ [(d.name, ⟨ds.length⟩)] } := by
  refine ⟨hgrown.reached, hgrown.sound, hgrown.grows.config.trans h.settings, ?_, ?_, fun k x hk => ?_⟩
  · rw [hgrown.size, h.size, List.length_append, List.length_singleton]
  · rw [h.names, numbersOf_concat]
  · rcases getElem?_concat_cases hk with ⟨-, hk⟩ | ⟨rfl, rfl⟩
    · obtain ⟨m, hm, hx⟩ := h.node k x hk
      obtain ⟨ps, hm'⟩ := hgrown.grows.node hm
      exact ⟨_, hm', hx.mono ps⟩
    · exact ⟨n, hgrown.node, hd.mono n.parents⟩

theorem change (h : Follows config ds g) (hgrown : Grown config ds g graph n) (op : GraphOp) {f : Node → Node}
    (hf : ∀ n, (f n).nameless = n.nameless)
    (hop : op.perform = (fun _ => GraphAnswer.done) <$> Graph.change ⟨ds.length⟩ f) :
    Graph.change ⟨ds.length⟩ f graph = .ok () (graph.update ⟨ds.length⟩ f) ∧
      Grown config ds g (graph.update ⟨ds.length⟩ f) (f n) := by
  have hchange := Graph.change_ok hgrown.node f
  have hnew : g.graph.node? ⟨ds.length⟩ = none := h.size ▸ g.graph.node?_size
  refine ⟨hchange, ⟨?_, hgrown.sound.update _ hf, hgrown.grows.update hnew f, ?_, ?_⟩⟩
  · exact Graph.after_eq op hop hchange ▸ hgrown.reached.after op
  · exact Array.size_modify.trans hgrown.size
  · rw [Graph.node?_update, if_pos rfl, hgrown.node]
    rfl

theorem addReorg (h : Follows config ds g) {source : String} (hlookup : g.names.lookup source = some i) (op : Reorg)
    (position : Position) : ∃ graph n, Graph.addReorg op [i] position g.graph = .ok ⟨ds.length⟩ graph ∧
      Grown config ds g graph n ∧ n.kind = .reorg op ∧ n.inputs = [i] ∧ n.forced = none := by
  obtain ⟨x, hx, -⟩ := lookup_numbersOf_cases (h.names ▸ hlookup)
  obtain ⟨m, hm, -⟩ := h.node i.index x hx
  have hadd : Graph.addReorg op [i] position g.graph = .ok _ _ := Graph.addReorg_eq hm
  rw [h.size] at hadd
  obtain ⟨-, n, -, -, -, hn, -, -, -, -, hkind, hinputs, -⟩ := Graph.addReorg_ok hadd
  obtain ⟨hextends, hsize⟩ := Graph.addReorg_extends hadd
  have hreached := Graph.after_eq (.addReorg op [i] position) rfl hadd ▸ h.reached.after (.addReorg op [i] position)
  have hforced : n.forced = none := by
    have hstance := Graph.stance?_addReorg hadd
    rw [Graph.stance?, hn] at hstance
    exact congrArg (fun s => s.2.1) (Option.some.inj hstance)
  exact ⟨_, n, hadd, ⟨hreached, h.sound.addReorg hadd, hextends, hsize, hn⟩, hkind, hinputs, hforced⟩

theorem addInput (h : Follows config ds g) (name : String) (size : SizeInfo) : ∃ graph n,
    Graph.addInput name size g.graph = .ok ⟨ds.length⟩ graph ∧ Grown config ds g graph n ∧
      n.name = name ∧ n.kind = .input ∧ n.size = size ∧ n.inputs = [] ∧ n.forced = none := by
  have hadd := Graph.addInput_eq g.graph name size
  rw [h.size] at hadd
  obtain ⟨hgrows, hsize⟩ := Graph.addInput_extends g.graph name size
  have hreached := Graph.after_eq (.addInput name size) rfl hadd ▸ h.reached.after (.addInput name size)
  have hnode := Graph.node?_push g.graph name .input size [] {} ⟨ds.length⟩
  rw [h.size, if_pos rfl] at hnode
  exact ⟨_, _, hadd, ⟨hreached, h.sound.addInput hadd, hgrows, hsize, hnode⟩, rfl, rfl, rfl, rfl, rfl⟩

/-- a node that is grounded on those before is made as described, and then registered by its name -/
theorem add_eq (h : Follows config ds g) (hd : d.Grounded ds) : ∃ graph n, Grown config ds g graph n ∧
    d.Describes g.names config.blockSize n ∧
    g.add d ds.length = NamedGraph.register { g with graph := graph } d.name ⟨ds.length⟩ := by
  cases d with
  | input name rows cols nnz =>
    obtain ⟨graph, n, hadd, hgrown, hname, hkind, hsize, hinputs, hforced⟩ :=
      h.addInput name ⟨rows, cols, g.graph.config.blockSize, g.graph.config.blockSize, nnz⟩
    rw [h.settings] at hadd hsize
    refine ⟨graph, n, hgrown, ⟨hname, hkind, hsize, hinputs, hforced⟩, ?_⟩
    unfold NamedGraph.add
    rw [h.settings]
    exact Sequence.bind_ok (NamedGraph.step_ok hadd) _
  | reorg name op source placement =>
    obtain ⟨hsource, hparses⟩ := hd name op source placement rfl
    obtain ⟨i, hlookup⟩ := h.exists_lookup hsource
    obtain ⟨graph₁, n, hadd, hgrown₁, hkind, hinputs, hforced⟩ :=
      h.addReorg hlookup op ⟨ds.length + 1, 1, ds.length + 1, 1⟩
    obtain ⟨hrename, hgrown₂⟩ := h.change hgrown₁ (.rename ⟨ds.length⟩ name)
      (f := fun n => { n with name := name }) (fun _ => rfl) rfl
    unfold NamedGraph.add
    simp only [hlookup]
    cases placement with
    | none =>
      refine ⟨_, _, hgrown₂, ⟨rfl, hkind, ⟨i, hlookup, hinputs⟩, hforced⟩, ?_⟩
      refine (Sequence.bind_ok (NamedGraph.step_ok hadd) _).trans ?_
      exact Sequence.bind_ok (NamedGraph.step_ok hrename) _
    | some text =>
      obtain ⟨p, hp⟩ := hparses text rfl
      obtain ⟨hforce, hgrown₃⟩ := h.change hgrown₂ (.force ⟨ds.length⟩ (some p))
        (f := fun n => { n with forced := some p }) (fun _ => rfl) rfl
      refine ⟨_, _, hgrown₃, ⟨rfl, hkind, ⟨i, hlookup, hinputs⟩, ?_⟩, ?_⟩
      · rw [Option.bind_some, hp]
        rfl
      · refine (Sequence.bind_ok (NamedGraph.step_ok hadd) _).trans ?_
        refine (Sequence.bind_ok (NamedGraph.step_ok hrename) _).trans ?_
        refine (Sequence.bind_ok (placementOf_ok hp) _).trans ?_
        exact Sequence.bind_ok (NamedGraph.step_ok hforce) _

/-- **A node that fits is added.** -/
theorem add_ok (h : Follows config ds g) (hd : d.Fits ds) :
    ∃ g', g.add d ds.length = .ok g' ∧ Follows config (ds ++ [d]) g' := by
  obtain ⟨hnew, hgrounded⟩ := hd
  obtain ⟨graph, n, hgrown, hdescribes, hadd⟩ := h.add_eq hgrounded
  refine ⟨_, ?_, h.concat hgrown hdescribes⟩
  rw [hadd]
  exact NamedGraph.register_ok (h.names_eq ▸ hnew)

/-- **A node that does not fit is refused.** -/
theorem add_error (h : Follows config ds g) (hd : ¬ d.Fits ds) : ∃ e, g.add d ds.length = .error e := by
  by_cases hgrounded : d.Grounded ds
  · obtain ⟨graph, n, -, -, hadd⟩ := h.add_eq hgrounded
    have hold : d.name ∈ ds.map DescribedNode.name := by
      by_contra hnew
      exact hd ⟨hnew, hgrounded⟩
    rw [hadd]
    exact ⟨_, NamedGraph.register_error (h.names_eq ▸ hold)⟩
  · simp only [DescribedNode.Grounded, not_forall] at hgrounded
    obtain ⟨name, op, source, placement, rfl, hground⟩ := hgrounded
    unfold NamedGraph.add
    by_cases hsource : source ∈ ds.map DescribedNode.name
    · obtain ⟨i, hlookup⟩ := h.exists_lookup hsource
      obtain ⟨graph₁, n, hadd, hgrown₁, -⟩ := h.addReorg hlookup op ⟨ds.length + 1, 1, ds.length + 1, 1⟩
      obtain ⟨hrename, -⟩ := h.change hgrown₁ (.rename ⟨ds.length⟩ name)
        (f := fun n => { n with name := name }) (fun _ => rfl) rfl
      have hparses : ∃ text, placement = some text ∧ ¬ Parses text := by
        by_contra hall
        push Not at hall
        exact hground ⟨hsource, hall⟩
      obtain ⟨text, rfl, hnot⟩ := hparses
      obtain ⟨e, he⟩ := placementOf_error hnot
      refine ⟨e, ?_⟩
      simp only [hlookup]
      refine (Sequence.bind_ok (NamedGraph.step_ok hadd) _).trans ?_
      refine (Sequence.bind_ok (NamedGraph.step_ok hrename) _).trans ?_
      exact Sequence.bind_error he _
    · have hlookup : g.names.lookup source = none := Sequence.lookup_eq_none_iff.2 (h.names_eq ▸ hsource)
      simp only [hlookup]
      exact ⟨_, rfl⟩

end Follows

/-! ## Adding all nodes -/

/-- nodes added one after the other to no nodes -/
def addAll (config : PlannerConfig) (ds : List DescribedNode) : Except PlanError NamedGraph :=
  ds.zipIdx.foldlM (fun g (node, index) => g.add node index) ⟨Graph.ofConfig config, []⟩

theorem addAll_concat (config : PlannerConfig) (ds : List DescribedNode) (d : DescribedNode) :
    addAll config (ds ++ [d]) = addAll config ds >>= fun g => g.add d ds.length := by
  rw [addAll, List.zipIdx_append, List.foldlM_append]
  simp [addAll]

/-- **Nodes are added if they are coherent, and refused if not.** -/
theorem addAll_cases (config : PlannerConfig) (ds : List DescribedNode) :
    (Coherent ds ∧ ∃ g, addAll config ds = .ok g ∧ Follows config ds g) ∨
      ¬ Coherent ds ∧ ∃ e, addAll config ds = .error e := by
  -- from the end of the list: whether a node is added depends on the graph of those before it
  induction ds using List.reverseRecOn with
  | nil => exact .inl ⟨coherent_nil, _, rfl, .empty config⟩
  | append_singleton ds d ih =>
    rw [coherent_concat, addAll_concat]
    rcases ih with ⟨hcoherent, g, hadded, hfollows⟩ | ⟨hnot, e, hrefused⟩
    · rw [Sequence.bind_ok hadded]
      by_cases hfits : d.Fits ds
      · exact .inl ⟨⟨hcoherent, hfits⟩, hfollows.add_ok hfits⟩
      · exact .inr ⟨fun h => hfits h.2, hfollows.add_error hfits⟩
    · rw [Sequence.bind_error hrefused]
      exact .inr ⟨fun h => hnot h.1, e, rfl⟩

/-! ## Descriptions -/

namespace Descriptor

variable {base : PlannerConfig} {d : Descriptor} {g : NamedGraph}

theorem build_eq (d : Descriptor) (base : PlannerConfig) : d.build base = d.settings base >>= fun config =>
    if d.nodes.isEmpty then throw (.invalid .noNodes) else addAll config d.nodes := by
  unfold build settings
  cases d.overrides with
  | none => cases d.nodes.isEmpty <;> rfl
  | some o =>
    dsimp only
    cases o.applyTo base with
    | error e => rfl
    | ok config => cases d.nodes.isEmpty <;> rfl

theorem Accepted.build (hd : d.Accepted) (base : PlannerConfig) : ∃ g, d.build base = .ok g := by
  obtain ⟨config, hsettings⟩ : ∃ config, d.settings base = .ok config := settings_ok_iff.2 hd.override
  have hnodes : d.nodes.isEmpty = false := by simpa using hd.nonempty
  rw [build_eq, Sequence.bind_ok hsettings, hnodes]
  rcases addAll_cases config d.nodes with ⟨-, g, hadded, -⟩ | ⟨hnot, -⟩
  · exact ⟨g, hadded⟩
  · exact absurd hd.coherent hnot

/-- a description that is built is accepted, and its graph follows it under its settings -/
theorem accepted_of_build (h : d.build base = .ok g) :
    d.Accepted ∧ ∃ config, d.settings base = .ok config ∧ Follows config d.nodes g := by
  rw [build_eq] at h
  cases hsettings : d.settings base with
  | error e =>
    rw [Sequence.bind_error hsettings] at h
    cases h
  | ok config =>
    rw [Sequence.bind_ok hsettings] at h
    cases hempty : d.nodes.isEmpty with
    | true =>
      rw [hempty] at h
      cases h
    | false =>
      rw [hempty, if_neg Bool.false_ne_true] at h
      rcases addAll_cases config d.nodes with ⟨hcoherent, g', hadded, hfollows⟩ | ⟨-, e, hrefused⟩
      · obtain rfl := Except.ok.inj (hadded.symm.trans h)
        have hnonempty : d.nodes ≠ [] := by simpa using hempty
        exact ⟨⟨settings_ok_iff.1 ⟨config, hsettings⟩, hnonempty, hcoherent⟩, config, rfl, hfollows⟩
      · rw [hrefused] at h
        cases h

/-- **A description is built exactly if it is accepted, and then lowers.** Its graph has its settings and for each node of
the description, in order, one node as described, to whose number the name is looked up; there are no other nodes or
names. Lowering the graph succeeds with one root for each node that nothing consumes, the one noted there. -/
theorem build_accepted (d : Descriptor) (base : PlannerConfig) :
    ((∃ g, d.build base = .ok g) ↔ d.Accepted) ∧ ∀ g, d.build base = .ok g →
      d.settings base = .ok g.graph.config ∧ g.graph.nodes.size = d.nodes.length ∧
      g.names.length = d.nodes.length ∧ (g.names.map Prod.fst).Nodup ∧
      (∀ k x, d.nodes[k]? = some x → g.names.lookup x.name = some ⟨k⟩ ∧ ∃ n, g.graph.node? ⟨k⟩ = some n ∧ n.id = ⟨k⟩ ∧
        x.Describes g.names g.graph.config.blockSize n) ∧
      ∃ p g', Graph.lowerAll g.graph = .ok p g' ∧
        List.Forall₂ (fun id o => g'.operator? id = some o) g.graph.sinks p.roots := by
  refine ⟨⟨fun ⟨g, h⟩ => (accepted_of_build h).1, fun hd => hd.build base⟩, fun g h => ?_⟩
  obtain ⟨haccepted, config, hsettings, hfollows⟩ := accepted_of_build h
  obtain ⟨p, g', hlower, -⟩ := Graph.lowerAll_lowers hfollows.sound
  refine ⟨hfollows.settings ▸ hsettings, hfollows.size, ?_, ?_, fun k x hx => ?_, p, g', hlower, ?_⟩
  · rw [hfollows.names, numbersOf, List.length_map, List.length_zipIdx]
  · rw [hfollows.names_eq]
    exact haccepted.coherent.nodup
  · obtain ⟨n, hn, hdescribes⟩ := hfollows.node k x hx
    refine ⟨?_, n, hn, hfollows.sound.id hn, hfollows.settings ▸ hdescribes⟩
    rw [hfollows.names]
    exact lookup_numbersOf haccepted.coherent.nodup hx
  · exact (Graph.lowerAll_notes hfollows.reached.kept).2 p g' hlower

/-- a square, its transpose, to run here, and the diagonal of that -/
def sketch : Descriptor :=
  ⟨none, [.input "X" (some 2) (some 2) none, .reorg "T" .transpose "X" (some "CP"), .reorg "D" .diagToVector "T" none]⟩

/-- it is built, with its last node found by its name and one root for it -/
theorem sketch_is_built : ∃ g, sketch.build {} = .ok g ∧ sketch.Accepted ∧ g.names.lookup "D" = some ⟨2⟩ ∧
    ∃ p g', Graph.lowerAll g.graph = .ok p g' ∧ p.roots.length = 1 := by
  obtain ⟨g, hbuild, hsinks⟩ : ∃ g, sketch.build {} = .ok g ∧ g.graph.sinks = [⟨2⟩] := ⟨_, rfl, rfl⟩
  obtain ⟨haccepted, hbuilt⟩ := build_accepted sketch {}
  obtain ⟨-, -, -, -, hnodes, p, g', hlower, hroots⟩ := hbuilt g hbuild
  obtain ⟨hname, -⟩ := hnodes 2 (.reorg "D" .diagToVector "T" none) rfl
  refine ⟨g, hbuild, haccepted.1 ⟨g, hbuild⟩, hname, p, g', hlower, ?_⟩
  rw [← hroots.length_eq, hsinks]
  rfl

end Descriptor

end MatrixEngine
