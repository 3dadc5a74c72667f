/-
Decisions from unknown shapes.

The strategy flags a node that it decides while the node's own shape is unknown, and a flagged node is decided anew each
time.
- `lower_flags`: lowering a graph that was just built flags the transposes and diagonal matrices of unknown shape on the
  way; the diagonal of a matrix runs on the cluster whatever its shape, so that nothing is decided for it.
- `place_after_refresh`: once sizes are stated and derived anew, a node is placed as a new one is if it was flagged, and
  as before if only the shape of its input was unknown.
-/
import MatrixEngine.Proofs.Plan.Sizes
import MatrixEngine.Proofs.Plan.Verdicts

namespace MatrixEngine

/-- what deciding a node reads of it -/
def Node.basis (n : Node) : NodeKind × List NodeId × Option (Nat × Nat) × Option Nat × Option Placement :=
  (n.kind, n.inputs, n.size.dims?, n.size.nnz, n.forced)

theorem Node.of_basis {n n' : Node} (h : n'.basis = n.basis) : n'.kind = n.kind ∧ n'.inputs = n.inputs ∧
    n'.size.dims? = n.size.dims? ∧ n'.size.nnz = n.size.nnz ∧ n'.forced = n.forced := by
  simpa only [basis, Prod.mk.injEq] using h

/-- the formula for the output of a reorganisation reads nothing but the dimensions of its own size -/
theorem Reorg.outputBytes?_congr {op : Reorg} {s s' : SizeInfo} (h : s'.dims? = s.dims?) (a : SizeInfo) :
    op.outputBytes? s' a = op.outputBytes? s a := by
  unfold outputBytes?
  rw [h]

namespace Graph

variable {config : PlannerConfig} {g g' : Graph} {id i j : NodeId} {n n' : Node} {op : Reorg} {input : NodeId}

/-! ## Lowering what was just built -/

/-- nothing is forced on nodes or decided for them -/
def Untouched (g : Graph) : Prop := ∀ i n, g.node? i = some n → n.forced = none ∧ n.mark = (none, false)

theorem Untouched.attach (hg : g.Untouched) {inputs : List NodeId} (hin : ∀ i ∈ inputs, ∃ m, g.node? i = some m)
    (name : String) (kind : NodeKind) (size : SizeInfo) (position : Position) :
    (g.attach name kind size inputs position).Untouched := by
  intro i n hn
  have hparents : ∀ (n : Node) ps,
      ({ n with parents := ps }.forced, { n with parents := ps }.mark) = (n.forced, n.mark) := fun _ _ => rfl
  have hmap := map_attach (f := fun n => (n.forced, n.mark)) hparents hin name kind size position i
  rw [hn] at hmap
  split_ifs at hmap
  · exact Prod.mk.inj (Option.some.inj hmap)
  · obtain ⟨m, hm, hsame⟩ := Option.map_eq_some_iff.1 hmap.symm
    obtain ⟨hforced, hmark⟩ := Prod.mk.inj hsame
    rw [← hforced, ← hmark]
    exact hg i m hm

theorem Untouched.refreshed (hg : g.Untouched) (id : NodeId) : (g.refreshed id).Untouched := by
  intro i n hn
  have hsize : ∀ (n : Node) s, ({ n with size := s }.forced, { n with size := s }.mark) = (n.forced, n.mark) :=
    fun _ _ => rfl
  obtain ⟨m, hm, hsame⟩ := node_of_map (g.map_refreshed id (f := fun n => (n.forced, n.mark)) hsize).symm hn
  obtain ⟨hforced, hmark⟩ := Prod.mk.inj hsame
  rw [← hforced, ← hmark]
  exact hg i m hm

/-- in a graph that is built nothing is decided yet, and the settings are those that it began with -/
theorem Built.untouched (hg : g.Built config) : g.config = config ∧ g.Untouched := by
  induction hg with
  | empty => exact ⟨rfl, fun i n hn => by cases hn⟩
  | @input g g' name size id _ hadd ih =>
    rw [addInput_eq] at hadd
    obtain ⟨-, rfl⟩ := EStateM.Result.ok.inj hadd
    have hattach : (g.attach name .input size [] {}).Untouched := ih.2.attach (by simp) name .input size {}
    exact ⟨ih.1, hattach⟩
  | @reorg g g' op input id position _ hadd ih =>
    rcases addReorg_cases op [input] position g with ⟨hin, hok⟩ | ⟨i, -, -, herror⟩
    · obtain ⟨-, rfl⟩ := EStateM.Result.ok.inj (hok.symm.trans hadd)
      refine ⟨?_, (ih.2.attach hin _ _ _ _).refreshed _⟩
      rw [(refreshed_frame _ _).1, (attach_frame ..).1, ih.1]
    · rw [herror] at hadd
      cases hadd

def Reads (g : Graph) (p x : NodeId) : Prop := ∃ n, g.node? p = some n ∧ x ∈ n.inputs

theorem Kept.lowered_below (hg : g.Kept) (hreads : Relation.ReflTransGen g.Reads id j) (ho : g.operator? id ≠ none) :
    g.operator? j ≠ none := by
  induction hreads with
  | refl => exact ho
  | tail _ hlast ih =>
    obtain ⟨n, hn, hinput⟩ := hlast
    obtain ⟨o, ho⟩ := Option.ne_none_iff_exists'.1 ih
    rw [operator?_of_node hn] at ho
    obtain ⟨k, hmade⟩ := hg.noted hn ho
    obtain ⟨a, ha, -⟩ := hmade.input_mem_walk (hg.source hn) hinput
    rw [ha]
    exact Option.some_ne_none a

theorem Reads.of_bare (h : g'.bare = g.bare) {p x : NodeId} (hreads : g.Reads p x) : g'.Reads p x := by
  obtain ⟨n, hn, hx⟩ := hreads
  obtain ⟨n', hn', hsame⟩ := node_of_bare h hn
  obtain ⟨-, -, -, hinputs, -⟩ := Node.of_bare hsame
  exact ⟨n', hn', hinputs ▸ hx⟩

/-- lowering a node of a graph that is built leaves verdicts at the direct nodes that it reads, and decides no other of
them -/
theorem Built.lower_marks (hg : g.Built config) (hn : g.node? id = some n) : ∃ o g', lower id g = .ok o g' ∧
    g'.bare = g.bare ∧ ∀ j m, Relation.ReflTransGen g.Reads id j → g.node? j = some m →
      g'.mark? j = some (if m.kind.direct then g.verdict m else (none, false)) := by
  have hkept := hg.reached.kept
  obtain ⟨o, g', -, hlower, -⟩ := lower_makes hg.sound hn (.start hg.sound)
  have hplaces := lower_places hkept id
  obtain ⟨hlowers, hnoted⟩ := lower_notes id hkept
  rw [hlower, ending_ok] at hplaces hlowers
  have hkept' : g'.Kept := hlowers.changes.kept hkept
  refine ⟨o, g', hlower, hplaces.marks.bare, fun j m hreads hm => ?_⟩
  have hreads' : Relation.ReflTransGen g'.Reads id j :=
    Relation.ReflTransGen.mono (fun _ _ h => Reads.of_bare hplaces.marks.bare h) _ _ hreads
  -- an operator at the node has one at each node that it reads, so all of them are lowered on the way
  have hlowered : g'.operator? j ≠ none := by
    refine hkept'.lowered_below hreads' ?_
    rw [hnoted o g' hlower]
    exact Option.some_ne_none o
  cases hdirect : m.kind.direct with
  | true =>
    rw [hplaces.marks.decided j ⟨m, hm, hdirect, hg.sound.fresh hm, hlowered⟩, verdict?, hm]
    rfl
  | false =>
    have hother : j ∉ LoweredDirect g g' := by
      rintro ⟨m', hm', hdirect', -⟩
      obtain rfl := Option.some.inj (hm.symm.trans hm')
      rw [hdirect] at hdirect'
      cases hdirect'
    rw [hplaces.marks.others j hother, mark?, hm, Option.map_some, (hg.untouched.2 j m hm).2]
    rfl

/-- **Lowering flags what it decides from an unknown shape.** In a graph that is built, with nothing forced and flagging
switched on, lowering a node succeeds and leaves flags at exactly the transposes and diagonal matrices of unknown shape
that it reads. The diagonal of a matrix, whose chain runs on the cluster whatever its shape, has neither flag nor
placement. -/
theorem lower_flags (hg : g.Built config) (hrecompile : config.recompile = true) (hforced : config.forced = none)
    (hn : g.node? id = some n) : ∃ o g', lower id g = .ok o g' ∧ ∀ j m op, Relation.ReflTransGen g.Reads id j →
      g.node? j = some m → m.kind = .reorg op → ∃ m', g'.node? j = some m' ∧ m'.size = m.size ∧
        (m'.recompile = true ↔ op ≠ .diagToVector ∧ m.size.dimsKnown = false) ∧
        (op = .diagToVector → m'.placement = none) := by
  obtain ⟨o, g', hlower, hbare, hmarks⟩ := hg.lower_marks hn
  obtain ⟨hconfig, huntouched⟩ := hg.untouched
  refine ⟨o, g', hlower, fun j m op hreads hm hkind => ?_⟩
  obtain ⟨m', hm', hsame⟩ := node_of_bare hbare hm
  obtain ⟨-, -, hsize, -⟩ := Node.of_bare hsame
  refine ⟨m', hm', hsize, ?_⟩
  have hmark := hmarks j m hreads hm
  rw [mark?, hm', hkind] at hmark
  by_cases hop : op = .diagToVector
  · have hdirect : (NodeKind.reorg op).direct = false := by rw [hop]; rfl
    rw [hdirect] at hmark
    obtain ⟨hplacement, hflag⟩ := Prod.mk.inj (Option.some.inj hmark)
    have hunflagged : m'.recompile = false := hflag
    refine ⟨?_, fun _ => hplacement⟩
    simp [hunflagged, hop]
  · obtain ⟨hforced₀, hmark₀⟩ := huntouched j m hm
    obtain ⟨hplacement₀, hflag₀⟩ := Prod.mk.inj hmark₀
    have hopen : m.standing = none := standing_eq_none_iff.2 (.inl hplacement₀)
    have hflags : g.flags m = !m.size.dimsKnown :=
      flags_unforced hkind hforced₀ (by rw [hconfig, hforced]) (by rw [hconfig, hrecompile])
    rw [NodeKind.direct_reorg_iff.2 hop, if_pos rfl, verdict_of_open hopen, hflag₀, hflags] at hmark
    obtain ⟨-, hflag⟩ := Prod.mk.inj (Option.some.inj hmark)
    rw [Bool.false_or] at hflag
    refine ⟨?_, fun h => absurd h hop⟩
    rw [hflag]
    simp [hop]

/-- a matrix of unknown shape, its transpose, and the diagonal of that -/
def shapelessSteps : List GraphOp :=
  [.addInput "X" (.unknown 1000), .addReorg .transpose [⟨0⟩] {}, .addReorg .diagToVector [⟨1⟩] {}]

def shapeless : Graph := (ofConfig {}).afterAll shapelessSteps

theorem shapeless_built : shapeless.Built {} := by
  have hinput := addInput_eq (ofConfig {}) "X" (.unknown 1000)
  have htranspose : ((ofConfig {}).afterAll (shapelessSteps.take 2)).Built {} :=
    .reorg (.input .empty hinput) (show addReorg .transpose [⟨0⟩] {} _ = .ok ⟨1⟩ _ from rfl)
  exact .reorg htranspose (show addReorg .diagToVector [⟨1⟩] {} _ = .ok ⟨2⟩ _ from rfl)

/-- lowering the diagonal flags the transpose below it -/
theorem shapeless_transpose_is_flagged : ∃ o g' m, lower ⟨2⟩ shapeless = .ok o g' ∧ g'.node? ⟨1⟩ = some m ∧
    m.size.dimsKnown = false ∧ m.recompile = true := by
  obtain ⟨d, hd, hreads⟩ : ∃ d, shapeless.node? ⟨2⟩ = some d ∧ ⟨1⟩ ∈ d.inputs := ⟨_, rfl, by decide⟩
  obtain ⟨t, ht, hkind, hunknown⟩ : ∃ t, shapeless.node? ⟨1⟩ = some t ∧ t.kind = .reorg .transpose ∧
      t.size.dimsKnown = false := ⟨_, rfl, rfl, rfl⟩
  obtain ⟨o, g', hlower, hflags⟩ := lower_flags shapeless_built rfl rfl hd
  obtain ⟨m, hm, hsize, hflag, -⟩ := hflags ⟨1⟩ t _ (.single ⟨d, hd, hreads⟩) ht hkind
  exact ⟨o, g', m, hlower, hm, hsize ▸ hunknown, hflag.2 ⟨by decide, hunknown⟩⟩

/-- and leaves the diagonal without a flag, although its shape is unknown too -/
theorem shapeless_diagonal_is_not_flagged : shapeless.Built {} ∧ ∃ o g' m, lower ⟨2⟩ shapeless = .ok o g' ∧
    g'.node? ⟨2⟩ = some m ∧ m.kind = .reorg .diagToVector ∧ m.size.dimsKnown = false ∧ m.recompile = false := by
  obtain ⟨d, hd, hkind, hunknown⟩ : ∃ d, shapeless.node? ⟨2⟩ = some d ∧ d.kind = .reorg .diagToVector ∧
      d.size.dimsKnown = false := ⟨_, rfl, rfl, rfl⟩
  obtain ⟨o, g', hlower, hbare, hmarks⟩ := shapeless_built.lower_marks hd
  obtain ⟨m, hm, hsame⟩ := node_of_bare hbare hd
  obtain ⟨-, hkind', hsize, -⟩ := Node.of_bare hsame
  have hmark := hmarks ⟨2⟩ d .refl hd
  rw [mark?, hm, hkind] at hmark
  have hflag : m.recompile = false := congrArg Prod.snd (Option.some.inj hmark)
  exact ⟨shapeless_built, o, g', m, hlower, hm, hkind'.trans hkind, hsize ▸ hunknown, hflag⟩

/-! ## What a decision reads -/

namespace Extends

theorem outputBytesOf (h : Extends g g') (hin : g.InputsIn n) (hbasis : n'.basis = n.basis) :
    g'.outputBytesOf n' = g.outputBytesOf n := by
  obtain ⟨hkind, hinputs, hdims, hnnz, -⟩ := Node.of_basis hbasis
  unfold Graph.outputBytesOf
  rw [hkind, hinputs, hdims, hnnz, h.config]
  cases n.kind with
  | input => rfl
  | reorg op =>
    cases hfirst : n.inputs.head? with
    | none => rfl
    | some first =>
      obtain ⟨m, hm⟩ := hin first (List.mem_of_head? hfirst)
      obtain ⟨ps, hm'⟩ := h.node hm
      simp only [Option.bind_eq_bind, Option.bind_some, hm, hm', Reorg.outputBytes?_congr hdims]

theorem outputBytesAt (h : Extends g g') (hg : g.Kept) {m : Node} (hm : g.node? i = some m) :
    g'.outputBytesAt i = g.outputBytesAt i := by
  obtain ⟨ps, hm'⟩ := h.node hm
  rw [Graph.outputBytesAt, Graph.outputBytesAt, hm, hm', Option.map_some, Option.map_some,
    h.outputBytesOf (hg.inputsIn hm) (show { m with parents := ps }.basis = m.basis from rfl)]

theorem memoryOf (h : Extends g g') (hg : g.Kept) (hin : g.InputsIn n) (hbasis : n'.basis = n.basis) :
    g'.memoryOf n' = g.memoryOf n := by
  obtain ⟨-, hinputs, -⟩ := Node.of_basis hbasis
  rw [Graph.memoryOf, Graph.memoryOf, hinputs, h.outputBytesOf hin hbasis]
  refine List.foldl_ext _ _ _ fun total i hi => ?_
  obtain ⟨m, hm⟩ := hin i hi
  rw [h.outputBytesAt hg hm]

theorem smallInput (h : Extends g g') (hin : g.InputsIn n) (hbasis : n'.basis = n.basis) :
    g'.smallInput n' = g.smallInput n := by
  obtain ⟨-, hinputs, -⟩ := Node.of_basis hbasis
  unfold Graph.smallInput
  rw [hinputs, h.config]
  cases hfirst : n.inputs.head? with
  | none => rfl
  | some first =>
    obtain ⟨m, hm⟩ := hin first (List.mem_of_head? hfirst)
    obtain ⟨ps, hm'⟩ := h.node hm
    simp only [Option.bind_some, hm, hm', Option.map_some]

/-- **A decision follows from what it reads**: it is the same where the node reads the same of an extended graph. -/
theorem placedAnew (h : Extends g g') (hg : g.Kept) (hin : g.InputsIn n) (hbasis : n'.basis = n.basis) :
    g'.placedAnew n' = g.placedAnew n := by
  obtain ⟨hkind, -, -, -, hforced⟩ := Node.of_basis hbasis
  have hdecided : g'.decided n' = g.decided n := by
    rw [Graph.decided, Graph.decided, h.config, h.memoryOf hg hin hbasis, h.smallInput hin hbasis]
  rw [Graph.placedAnew, Graph.placedAnew, hkind, hforced, h.config, hdecided]

end Extends

/-! ## Sizes stated later -/

/-- sizes stated of nodes, and all sizes derived anew -/
def restatement (sizes : List (NodeId × SizeInfo)) : List GraphOp :=
  sizes.map (fun s => .resize s.1 s.2) ++ [.refreshAll]

theorem stance?_restatement (g : Graph) (sizes : List (NodeId × SizeInfo)) (id : NodeId) :
    (g.afterAll (restatement sizes)).stance? id = g.stance? id := by
  have hresize : ∀ (g : Graph) (i : NodeId) (size : SizeInfo),
      (g.after (.resize i size)).stance? id = g.stance? id := by
    intro g i size
    rw [after, GraphOp.perform, ending_map, resize, stance?_change]
    split_ifs <;> rfl
  have hresizes : ∀ g : Graph, (g.afterAll (sizes.map fun s => .resize s.1 s.2)).stance? id = g.stance? id := by
    induction sizes with
    | nil => exact fun _ => rfl
    | cons s sizes ih => exact fun g => (ih (g.after (.resize s.1 s.2))).trans (hresize g s.1 s.2)
  rw [restatement, afterAll_concat, after, GraphOp.perform, ending_map, stance?_refreshAll]
  exact hresizes g

/-- and it leaves all sizes derived -/
theorem Kept.derived_restatement (hg : g.Kept) (hn : g.node? id = some n) (sizes : List (NodeId × SizeInfo)) :
    (g.afterAll (restatement sizes)).Derived id := by
  have hchanges := afterAll_changes hg (sizes.map fun s => .resize s.1 s.2)
  obtain ⟨n', hn', -⟩ := hchanges.keeps hn
  rw [restatement, afterAll_concat, Graph.after, GraphOp.perform, ending_map, refreshAll_eq, ending_ok]
  set g' := g.afterAll (sizes.map fun s => .resize s.1 s.2)
  have hderived : (g'.refreshedBelow g'.nodes.size).Derived id :=
    (hchanges.kept hg).derived_refreshedBelow g'.nodes.size (node?_eq_some_lt hn')
  exact @hderived

/-- what deciding an open node leaves of it, with nothing forced and flagging switched on -/
theorem decides_open (hg : g.Kept) (hn : g.node? id = some n) (hkind : n.kind = .reorg op)
    (hforced : n.forced = none) (hsettings : g.config.forced = none) (hrecompile : g.config.recompile = true)
    (hopen : n.standing = none) {q : GraphOp} (hq : q.isQuery = true) (hdecides : id ∈ g.Decides q) :
    (g.after q).stance? id =
      some (.reorg op, none, if n.recompile || !n.size.dimsKnown then none else some (g.placedAnew n)) := by
  obtain ⟨n', hn', hsame⟩ := node_of_bare (after_alike hg.earlier hq).bare hn
  have hmark := (after_marks hg hq).decided id hdecides
  have hflags : g.flags n = !n.size.dimsKnown := flags_unforced hkind hforced hsettings hrecompile
  rw [mark?, verdict?, hn, hn', Option.map_some, Option.map_some, verdict_of_open hopen, hflags] at hmark
  obtain ⟨hplacement, hflag⟩ := Prod.mk.inj (Option.some.inj hmark)
  have hstanding : n'.standing = if n.recompile || !n.size.dimsKnown then none else some (g.placedAnew n) := by
    rw [Node.standing, hflag, ← hplacement]
  have hforced' : n'.forced = n.forced := Node.forced_of_bare hsame
  obtain ⟨-, hkind', -⟩ := Node.of_bare hsame
  rw [stance?, hn', Option.map_some, Node.stance, hkind', hkind, hforced', hforced, hstanding]

/-- a new node over an input, placed, is decided as an open node of the same kind and input, once sizes are derived -/
theorem place_addReorg (hg : g.Kept) (hn : g.node? id = some n) (hkind : n.kind = .reorg op)
    (hinputs : n.inputs = [input]) (hforced : n.forced = none) (hderived : g.Derived id) (position : Position) :
    ∃ new g', addReorg op [input] position g = .ok new g' ∧ outcome (place new g') = .ok (g.placedAnew n) := by
  have hin : ∀ i ∈ [input], ∃ m, g.node? i = some m := hinputs ▸ hg.inputsIn hn
  obtain ⟨g', hadd⟩ : ∃ g', addReorg op [input] position g = .ok ⟨g.nodes.size⟩ g' := by
    rcases addReorg_cases op [input] position g with ⟨-, hok⟩ | ⟨i, hi, hnone, -⟩
    · exact ⟨_, hok⟩
    · obtain ⟨m, hm⟩ := hin i hi
      rw [hnone] at hm
      cases hm
  refine ⟨_, g', hadd, ?_⟩
  obtain ⟨m, new, ps, hm, -, hnew, -, -, -, -, hkind', hinputs', -, -, hsize⟩ := addReorg_ok hadd
  have hstance := stance?_addReorg hadd
  obtain ⟨hforced', hopen⟩ : new.forced = none ∧ new.standing = none := by
    rw [stance?, hnew] at hstance
    simpa [Node.stance, hkind'] using hstance
  have hbasis : new.basis = n.basis := by
    have hsame := hsize.symm.trans (hderived hn hkind (by rw [hinputs]; rfl) hm)
    simp only [Prod.mk.injEq] at hsame
    obtain ⟨hrows, hcols, hnnz⟩ := hsame
    have hdims : new.size.dims? = n.size.dims? := by rw [SizeInfo.dims?, SizeInfo.dims?, hrows, hcols]
    rw [Node.basis, Node.basis, hkind', hkind, hinputs', hinputs, hdims, hnnz, hforced', hforced]
  have hkept : g'.Kept := after_eq (.addReorg op [input] position) rfl hadd ▸ hg.after (.addReorg op [input] position)
  rw [(addReorg_extends hadd).1.placedAnew hg (hg.inputsIn hn) hbasis |>.symm]
  obtain ⟨g'', hplace, -⟩ := place_answers hnew (hkept.inputsIn hnew)
  rw [hplace, placing_eq, hopen]
  rfl

/-- **A decision from an unknown shape is reconsidered if the shape is the node's own.** In any graph that steps lead to,
with nothing forced and flagging switched on, let a query, placing or lowering, decide a reorganisation of one node anew.
However sizes are stated afterwards and derived anew, placing the node is answered
- as placing a new node of the same kind over the same input is, if the node was flagged before or its own shape was
  unknown to the decision;
- with that decision if not, whatever was known of its input. -/
theorem place_after_refresh (hg : g.Reached config) (hn : g.node? id = some n) (hkind : n.kind = .reorg op)
    (hinputs : n.inputs = [input]) (hforced : n.forced = none) (hsettings : g.config.forced = none)
    (hrecompile : g.config.recompile = true) (hopen : n.standing = none) :
    outcome (place id g) = .ok (g.placedAnew n) ∧
      ∀ q : GraphOp, q.isQuery = true → id ∈ g.Decides q → ∀ (sizes : List (NodeId × SizeInfo)) (position : Position),
        ∃ new g' p, addReorg op [input] position ((g.after q).afterAll (restatement sizes)) = .ok new g' ∧
          outcome (place new g') = .ok p ∧
          outcome (place id ((g.after q).afterAll (restatement sizes))) =
            .ok (if n.recompile || !n.size.dimsKnown then p else g.placedAnew n) := by
  have hkept := hg.kept
  refine ⟨?_, fun q hq hdecides sizes position => ?_⟩
  · obtain ⟨g', hplace, -⟩ := place_answers hn (hkept.inputsIn hn)
    rw [hplace, placing_eq, hopen]
    rfl
  have hstance := decides_open hkept hn hkind hforced hsettings hrecompile hopen hq hdecides
  have hkept₁ : (g.after q).Kept := hkept.after q
  obtain ⟨n₁, hn₁, hsame₁⟩ := node_of_bare (after_alike hkept.earlier hq).bare hn
  obtain ⟨-, -, -, hinputs₁, -⟩ := Node.of_bare hsame₁
  -- stating sizes and deriving them touches neither the decision nor the edges of the node
  have hchanges := afterAll_changes hkept₁ (restatement sizes)
  obtain ⟨n₂, hn₂, -, hinputs₂, -⟩ := hchanges.keeps hn₁
  have hstance₂ := stance?_restatement (g.after q) sizes id
  have hderived : ((g.after q).afterAll (restatement sizes)).Derived id := hkept₁.derived_restatement hn₁ sizes
  set g₂ := (g.after q).afterAll (restatement sizes)
  rw [hstance, stance?, hn₂, Option.map_some] at hstance₂
  obtain ⟨hkind₂, hforced₂, hstanding₂⟩ : n₂.kind = .reorg op ∧ n₂.forced = none ∧
      n₂.standing = if n.recompile || !n.size.dimsKnown then none else some (g.placedAnew n) := by
    simpa only [Node.stance, Option.some.injEq, Prod.mk.injEq] using hstance₂
  have hkept₂ : g₂.Kept := hchanges.kept hkept₁
  obtain ⟨new, g₃, hadd, hnew⟩ := place_addReorg hkept₂ hn₂ hkind₂ (hinputs₂.trans (hinputs₁.trans hinputs))
    hforced₂ @hderived position
  refine ⟨new, g₃, _, hadd, hnew, ?_⟩
  obtain ⟨g₄, hanswer, -⟩ := place_answers hn₂ (hkept₂.inputsIn hn₂)
  rw [hanswer, placing_eq, hstanding₂]
  split_ifs <;> rfl

/-- a matrix of three rows and an unknown number of columns, its transpose and its diagonal -/
def ribbonSteps : List GraphOp := [.addInput "X" ⟨some 3, none, 1000, 1000, none⟩, .addReorg .transpose [⟨0⟩] {},
  .addReorg .diagToVector [⟨0⟩] {}]

def ribbon : Graph := (ofConfig { strategy := .heuristic }).afterAll ribbonSteps

/-- the number of columns is found to be three -/
def squared : List GraphOp := restatement [(⟨0⟩, ⟨some 3, some 3, 1000, 1000, none⟩)]

/-- the transpose is sent to the cluster at first, and is placed like a new one, locally, once the columns are known -/
theorem ribbon_transpose_comes_back : outcome (place ⟨1⟩ ribbon) = .ok .distributed ∧
    outcome (place ⟨1⟩ ((ribbon.after (.place ⟨1⟩)).afterAll squared)) = .ok .local := by
  have hreached : ribbon.Reached { strategy := .heuristic } := ⟨ribbonSteps, rfl⟩
  obtain ⟨t, ht, hkind, hinputs, hforced, hopen, hunknown, hanew⟩ : ∃ t, ribbon.node? ⟨1⟩ = some t ∧
      t.kind = .reorg .transpose ∧ t.inputs = [⟨0⟩] ∧ t.forced = none ∧ t.standing = none ∧
      (t.recompile || !t.size.dimsKnown) = true ∧ ribbon.placedAnew t = .distributed :=
    ⟨_, rfl, rfl, rfl, rfl, rfl, rfl, rfl⟩
  obtain ⟨hplace, hlater⟩ := place_after_refresh hreached ht hkind hinputs hforced rfl rfl hopen
  obtain ⟨new, g', p, hadd, hnew, hagain⟩ :=
    hlater (.place ⟨1⟩) rfl (.inl rfl) [(⟨0⟩, ⟨some 3, some 3, 1000, 1000, none⟩)] {}
  obtain ⟨g'', hadd', hnew'⟩ : ∃ g'', addReorg .transpose [⟨0⟩] {} ((ribbon.after (.place ⟨1⟩)).afterAll squared) =
      .ok ⟨3⟩ g'' ∧ outcome (place ⟨3⟩ g'') = .ok .local := ⟨_, rfl, rfl⟩
  obtain ⟨rfl, rfl⟩ := EStateM.Result.ok.inj (hadd'.symm.trans hadd)
  rw [hunknown, if_pos rfl, ← hnew, hnew'] at hagain
  exact ⟨hanew ▸ hplace, hagain⟩

/-- the diagonal is sent to the cluster for want of the columns as well, but its own shape is known: it stays there when
the columns are known, where a new one is placed locally -/
theorem ribbon_diagonal_stays_away : ∃ g₁ g₂, ribbon.Reached { strategy := .heuristic } ∧
    place ⟨2⟩ ribbon = .ok .distributed g₁ ∧
    outcome (place ⟨2⟩ (g₁.afterAll squared)) = .ok .distributed ∧
    addReorg .diagToVector [⟨0⟩] {} (g₁.afterAll squared) = .ok ⟨3⟩ g₂ ∧
    outcome (place ⟨3⟩ g₂) = .ok .local :=
  ⟨_, _, ⟨ribbonSteps, rfl⟩, rfl, rfl, rfl, rfl⟩

end Graph

end MatrixEngine
