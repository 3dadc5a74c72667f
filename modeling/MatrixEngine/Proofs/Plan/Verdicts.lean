/-
What queries decide.

Placing a node decides it anew unless a placement stands, and what the decision leaves there is its mark: the placement,
and the flag that keeps it from standing (`Graph.verdict`). Queries leave verdicts and touch no other mark
(`Graph.Marks`).
- `mark?_decide`: estimating leaves no marks.
- `place_marks`: placing a node leaves the verdict there.
- `lower_places`: lowering leaves verdicts at the nodes that it lowers to a direct operator (`Graph.LoweredDirect`),
  whether it succeeds or fails.
- `after_marks`: so a query decides the nodes that it places or lowers so (`Graph.Decides`), and no others.
-/
import MatrixEngine.Proofs.Plan.Forced

namespace MatrixEngine

/-- what deciding a node leaves at it: a placement, and the flag to decide it again -/
def Node.mark (n : Node) : Option Placement × Bool := (n.placement, n.recompile)

theorem Node.standing_of_mark {n n' : Node} (h : n'.mark = n.mark) : n'.standing = n.standing := by
  obtain ⟨hplacement, hrecompile⟩ := Prod.mk.inj h
  rw [standing, standing, hplacement, hrecompile]

/-- the kinds of node that are lowered to a direct operator, where they are placed -/
def NodeKind.direct : NodeKind → Bool
  | input | reorg .diagToVector => false
  | reorg _ => true

theorem NodeKind.direct_reorg_iff {op : Reorg} : (reorg op).direct = true ↔ op ≠ .diagToVector := by
  cases op <;> simp [direct]

/-- steps that place a node -/
def GraphOp.places (id : NodeId) : GraphOp → Bool
  | place i => i = id
  | _ => false

namespace Graph

variable {β γ : Type} {g g' g'' : Graph} {id i j : NodeId} {n n' : Node} {o a : Operator} {S T : Set NodeId}

/-! ## Verdicts -/

/-- whether a decision taken anew flags a node: the strategy decides it, and its shape is unknown -/
def flags (g : Graph) (n : Node) : Bool :=
  match n.kind, n.forced <|> g.config.forced with
  | .reorg _, none => !n.size.dimsKnown && g.config.recompile
  | _, _ => false

/-- the mark of a node once it is placed: what stands is kept, and else the node is decided anew and maybe flagged -/
def verdict (g : Graph) (n : Node) : Option Placement × Bool :=
  (some (g.placing n), n.recompile || n.standing.isNone && g.flags n)

theorem placing_eq (g : Graph) (n : Node) : g.placing n = n.standing.getD (g.placedAnew n) := by
  unfold placing Node.standing
  cases n.recompile <;> cases n.placement <;> rfl

theorem flags_bare (g : Graph) (n : Node) : g.bare.flags n.bare = g.flags n := rfl

/-- with nothing forced and flagging switched on, a reorganisation is flagged if its own shape is unknown -/
theorem flags_unforced {op : Reorg} (hkind : n.kind = .reorg op) (hforced : n.forced = none)
    (hsettings : g.config.forced = none) (hrecompile : g.config.recompile = true) :
    g.flags n = !n.size.dimsKnown := by
  rw [flags, hkind, hforced, hsettings, hrecompile]
  exact Bool.and_true _

theorem verdict_congr (hbare : g'.bare = g.bare) (hn : n'.bare = n.bare) (hmark : n'.mark = n.mark) :
    g'.verdict n' = g.verdict n := by
  have hstanding := Node.standing_of_mark hmark
  have hrecompile : n'.recompile = n.recompile := congrArg Prod.snd hmark
  have hanew : g'.placedAnew n' = g.placedAnew n := congr_of_bare placedAnew_bare hbare hn
  have hflags : g'.flags n' = g.flags n := congr_of_bare flags_bare hbare hn
  rw [verdict, verdict, placing_eq, placing_eq, hstanding, hrecompile, hanew, hflags]

/-- **A verdict stays**: placing a node again leaves the mark that is there. -/
theorem verdict_verdict (hbare : g'.bare = g.bare) (hn : n'.bare = n.bare) (hmark : n'.mark = g.verdict n) :
    g'.verdict n' = g.verdict n := by
  have hanew : g'.placedAnew n' = g.placedAnew n := congr_of_bare placedAnew_bare hbare hn
  have hflags : g'.flags n' = g.flags n := congr_of_bare flags_bare hbare hn
  obtain ⟨hplacement, hrecompile⟩ := Prod.mk.inj hmark
  rw [← hmark, verdict, Node.mark, placing_eq, hflags, hanew]
  cases hr : n'.recompile with
  | false =>
    have hstands : n'.standing = some (g.placing n) := by rw [Node.standing, hr, ← hplacement]; rfl
    rw [hstands, hplacement]
    rfl
  | true =>
    -- a node that is flagged, before or by the decision, was decided anew
    have hopen : n'.standing = none := by rw [Node.standing, hr]; rfl
    have hwas : n.standing = none := by
      rw [hr] at hrecompile
      rcases Bool.or_eq_true_iff.1 hrecompile.symm with h | h
      · rw [Node.standing, h]
        rfl
      · exact Option.isNone_iff_eq_none.1 (Bool.and_eq_true_iff.1 h).1
    rw [hopen, hplacement, placing_eq, hwas]
    rfl

/-! ## Marks -/

def mark? (g : Graph) (id : NodeId) : Option (Option Placement × Bool) := (g.node? id).map Node.mark

def verdict? (g : Graph) (id : NodeId) : Option (Option Placement × Bool) := (g.node? id).map g.verdict

theorem mark?_update (id j : NodeId) {f : Node → Node} {h : Option Placement × Bool → Option Placement × Bool}
    (hf : ∀ n, (f n).mark = h n.mark) :
    (g.update id f).mark? j = if id = j then (g.mark? j).map h else g.mark? j := by
  rw [mark?, node?_update, mark?]
  split_ifs
  · rw [Option.map_map, Option.map_map]
    exact congrArg (fun f => Option.map f _) (funext hf)
  · rfl

theorem mark?_note (id : NodeId) {f : Node → Node} (hf : ∀ n, (f n).mark = n.mark) :
    (g.update id f).mark? = g.mark? := by
  funext j
  have hsame : ∀ n, (f n).mark = (fun m => m) n.mark := hf
  rw [mark?_update id j (h := fun m => m) hsame, Option.map_id', ite_self]

/-- bare nodes stay, those of a set get their verdicts, and the others keep their marks -/
structure Marks (S : Set NodeId) (g g' : Graph) : Prop where
  bare : g'.bare = g.bare
  decided : ∀ i ∈ S, g'.mark? i = g.verdict? i
  others : ∀ i ∉ S, g'.mark? i = g.mark? i

/-- a verdict follows from the bare graph and the mark, and is the same before and after it is left -/
theorem verdict?_congr (hbare : g'.bare = g.bare) (h : g'.mark? i = g.mark? i ∨ g'.mark? i = g.verdict? i) :
    g'.verdict? i = g.verdict? i := by
  cases hn : g.node? i with
  | none =>
    rw [verdict?, verdict?, hn, node?_eq_none_of_bare hbare hn]
    rfl
  | some n =>
    obtain ⟨n', hn', hsame⟩ := node_of_bare hbare hn
    rw [mark?, mark?, verdict?, hn, hn'] at h
    rw [verdict?, verdict?, hn, hn']
    refine congrArg some ?_
    rcases h with h | h
    · exact verdict_congr hbare hsame (Option.some.inj h)
    · exact verdict_verdict hbare hsame (Option.some.inj h)

namespace Marks

theorem of_same (hbare : g'.bare = g.bare) (h : g'.mark? = g.mark?) : Marks ∅ g g' :=
  ⟨hbare, fun _ hi => hi.elim, fun i _ => congrFun h i⟩

theorem refl (g : Graph) : Marks ∅ g g := .of_same rfl rfl

theorem congr (h : Marks S g g') (hST : ∀ i, i ∈ T ↔ i ∈ S) : Marks T g g' :=
  ⟨h.bare, fun i hi => h.decided i ((hST i).1 hi), fun i hi => h.others i fun hS => hi ((hST i).2 hS)⟩

theorem trans (h : Marks S g g') (h' : Marks T g' g'') : Marks (S ∪ T) g g'' := by
  refine ⟨h'.bare.trans h.bare, fun i hi => ?_, fun i hi => ?_⟩
  · by_cases hT : i ∈ T
    · -- decided last, maybe for the second time: the verdict is that of before
      rw [h'.decided i hT]
      refine verdict?_congr h.bare ?_
      by_cases hS : i ∈ S
      · exact .inr (h.decided i hS)
      · exact .inl (h.others i hS)
    · rw [h'.others i hT, h.decided i (hi.resolve_right hT)]
  · rw [Set.mem_union, not_or] at hi
    rw [h'.others i hi.2, h.others i hi.1]

end Marks

/-! ## Estimating and placing -/

theorem ending_get (f : Graph → GraphM β) (g : Graph) : ending ((get >>= f) g) = ending (f g g) := rfl

/-- the marks of all nodes are the same -/
def SameMarks (g g' : Graph) : Prop := g'.mark? = g.mark?

theorem SameMarks.trans {g₁ g₂ g₃ : Graph} (h : SameMarks g₁ g₂) (h' : SameMarks g₂ g₃) : SameMarks g₁ g₃ :=
  Eq.trans h' h

theorem mark?_outputBytes (id : NodeId) (g : Graph) : (ending (outputBytes id g)).mark? = g.mark? := by
  unfold outputBytes
  refine ending_node (P := fun g' => g'.mark? = g.mark?) (fun _ => rfl) fun n _ => mark?_note id ?_
  exact fun _ => rfl

/-- every estimate on the way notes itself at its node and leaves the marks -/
theorem mark?_memoryBytes (id : NodeId) (g : Graph) : (ending (memoryBytes id g)).mark? = g.mark? := by
  have htotal : ∀ (is : List NodeId) (total : Nat) (g : Graph), SameMarks g
      (ending ((is.foldlM (fun total i => do return saturatingAdd total (← outputBytes i)) total : GraphM Nat) g)) := by
    intro is
    induction is with
    | nil => exact fun _ _ => rfl
    | cons i is ih =>
      intro total g
      rw [List.foldlM_cons]
      refine ending_bind (R := SameMarks) .trans ?_ fun total g' _ _ => ih total g'
      exact ending_bind (R := SameMarks) .trans (mark?_outputBytes i g) fun _ _ _ _ => rfl
  unfold memoryBytes
  refine ending_node (P := SameMarks g) (fun _ => rfl) fun n _ => ?_
  refine ending_bind (R := SameMarks) .trans (mark?_outputBytes id g) fun own g₁ _ _ => ?_
  refine ending_bind (R := SameMarks) .trans (htotal n.inputs own g₁) fun total g₂ _ _ => mark?_note id ?_
  exact fun _ => rfl

/-- **Estimating leaves no marks**, whatever the settings. -/
theorem mark?_decide (id : NodeId) (n : Node) (g : Graph) : (ending (decide id n g)).mark? = g.mark? := by
  unfold decide
  rw [ending_get]
  cases g.config.strategy with
  | memoryBased =>
    exact ending_bind (R := SameMarks) .trans (mark?_memoryBytes id g) fun _ _ _ _ => rfl
  | heuristic => rfl

theorem mark?_placeAnew (id j : NodeId) (n : Node) (g : Graph) : (ending (placeAnew id n g)).mark? j =
    if id = j then (g.mark? j).map fun m => (m.1, m.2 || g.flags n) else g.mark? j := by
  have hquiet : g.mark? j = if id = j then (g.mark? j).map fun m => (m.1, m.2 || false) else g.mark? j := by
    simp only [Bool.or_false, Prod.mk.eta, Option.map_id', ite_self]
  unfold placeAnew flags
  rw [ending_get]
  cases n.kind with
  | input => exact hquiet
  | reorg op =>
    cases n.forced <|> g.config.forced with
    | some p => exact hquiet
    | none =>
      dsimp only
      cases !n.size.dimsKnown && g.config.recompile with
      | false => exact (congrFun (mark?_decide id n g) j).trans hquiet
      | true =>
        refine (congrFun (mark?_decide id n (g.update id fun n => { n with recompile := true })) j).trans ?_
        refine mark?_update id j fun m => ?_
        rw [Bool.or_true]
        rfl

/-- what is left of a node that is decided anew -/
theorem verdict_of_open (hopen : n.standing = none) :
    g.verdict n = (some (g.placedAnew n), n.recompile || g.flags n) := by
  rw [verdict, placing_eq, hopen]
  rfl

theorem verdict_of_standing {p : Placement} (hstands : n.standing = some p) : g.verdict n = n.mark := by
  have hplacing : g.placing n = p := by rw [placing_eq, hstands]; rfl
  unfold Node.standing at hstands
  split_ifs at hstands with hr
  rw [verdict, hplacing, Node.standing, if_neg hr, Node.mark, hstands]
  exact Prod.ext rfl (Bool.or_false _)

theorem standing_eq_none_iff : n.standing = none ↔ n.placement = none ∨ n.recompile = true := by
  unfold Node.standing
  cases n.recompile <;> simp

/-- deciding an open node anew and noting its placement leaves the verdict there, and touches no other mark -/
theorem mark?_placeAnew_noted (hn : g.node? id = some n) (hin : g.InputsIn n) (hopen : n.standing = none) (j : NodeId) :
    (ending ((placeAnew id n >>= fun p => do
      modify (·.update id fun n => { n with placement := some p })
      return p : GraphM Placement) g)).mark? j = if id = j then g.verdict? j else g.mark? j := by
  -- the decision flags the node first, and then the placement is noted
  have hflagged := mark?_placeAnew id j n g
  obtain ⟨g₁, hplace, -⟩ := placeAnew_answers hn hin (standing_eq_none_iff.1 hopen)
  rw [hplace, ending_ok] at hflagged
  rw [step_ok hplace]
  refine (mark?_update (g := g₁) id j (h := fun m => (some (g.placedAnew n), m.2)) fun _ => rfl).trans ?_
  rw [hflagged]
  split_ifs with hj
  · simp only [← hj, mark?, verdict?, hn, Option.map_some, verdict_of_open hopen, Node.mark]
  · rfl

/-- **Placing a node leaves the verdict there** and touches no other mark. -/
theorem place_marks (hn : g.node? id = some n) (hin : g.InputsIn n) : Marks {id} g (ending (place id g)) := by
  have hall : ∀ j, (ending (place id g)).mark? j = if id = j then g.verdict? j else g.mark? j := by
    intro j
    unfold place
    rw [step_ok (node_ok hn)]
    cases hp : n.placement with
    | none => exact mark?_placeAnew_noted hn hin (standing_eq_none_iff.2 (.inl hp)) j
    | some p =>
      cases hr : n.recompile with
      | true => exact mark?_placeAnew_noted hn hin (standing_eq_none_iff.2 (.inr hr)) j
      | false =>
        have hstands : n.standing = some p := by rw [Node.standing, hr, hp]; rfl
        change g.mark? j = _
        split_ifs with hj
        · rw [← hj, mark?, verdict?, hn, Option.map_some, Option.map_some, verdict_of_standing hstands]
        · rfl
  obtain ⟨g', hplace, hsettles⟩ := place_answers hn hin
  refine ⟨?_, fun i hi => ?_, fun i hi => ?_⟩
  · rw [hplace]
    exact hsettles.bare
  · rw [hall, if_pos (Set.mem_singleton_iff.1 hi).symm]
  · rw [hall, if_neg fun h => hi (Set.mem_singleton_iff.2 h.symm)]

/-! ## Lowering -/

/-- the nodes that are lowered between two graphs by a direct operator -/
def LoweredDirect (g g' : Graph) : Set NodeId :=
  {j | ∃ n, g.node? j = some n ∧ n.kind.direct = true ∧ n.lowered = none ∧ g'.operator? j ≠ none}

theorem operator?_of_node (hn : g.node? i = some n) : g.operator? i = n.lowered := by
  rw [operator?, hn]
  rfl

/-- no node is lowered where no operator is noted -/
theorem loweredDirect_of_same (h : ∀ i, g'.operator? i = g.operator? i) : LoweredDirect g g' = ∅ := by
  refine Set.eq_empty_iff_forall_notMem.2 ?_
  rintro i ⟨n, hn, -, hnone, hnoted⟩
  rw [h, operator?_of_node hn] at hnoted
  exact hnoted hnone

/-- verdicts are left at the nodes that are lowered to a direct operator, and what is noted stays -/
structure Places (g g' : Graph) : Prop where
  marks : Marks (LoweredDirect g g') g g'
  noted : ∀ {i o}, g.operator? i = some o → g'.operator? i = some o

namespace Places

theorem refl (g : Graph) : Places g g :=
  ⟨(Marks.refl g).congr fun _ => by rw [loweredDirect_of_same fun _ => rfl], fun h => h⟩

/-- a node that is lowered on the way is lowered on one of two parts of it -/
theorem trans (h : Places g g') (h' : Places g' g'') : Places g g'' := by
  refine ⟨(h.marks.trans h'.marks).congr fun i => ⟨?_, ?_⟩, fun ho => h'.noted (h.noted ho)⟩
  · rintro ⟨n, hn, hdirect, hnone, hnoted⟩
    by_cases hfirst : g'.operator? i = none
    · obtain ⟨n', hn', hsame⟩ := node_of_bare h.marks.bare hn
      obtain ⟨-, hkind, -⟩ := Node.of_bare hsame
      exact .inr ⟨n', hn', hkind ▸ hdirect, (operator?_of_node hn').symm.trans hfirst, hnoted⟩
    · exact .inl ⟨n, hn, hdirect, hnone, hfirst⟩
  · rintro (⟨n, hn, hdirect, hnone, hnoted⟩ | ⟨n', hn', hdirect, hnone, hnoted⟩)
    · obtain ⟨o, ho⟩ := Option.ne_none_iff_exists'.1 hnoted
      exact ⟨n, hn, hdirect, hnone, by rw [h'.noted ho]; simp⟩
    · obtain ⟨n, hn, hsame⟩ := node_of_bare h.marks.bare.symm hn'
      obtain ⟨-, hkind, -⟩ := Node.of_bare hsame
      refine ⟨n, hn, hkind ▸ hdirect, ?_, hnoted⟩
      by_contra hsome
      obtain ⟨o, ho⟩ := Option.ne_none_iff_exists'.1 hsome
      have hstays := h.noted ((operator?_of_node hn).trans ho)
      rw [operator?_of_node hn', hnone] at hstays
      cases hstays

/-- an operator is noted at a node that was placed if the operator is to be a direct one -/
theorem note (hn : g.node? id = some n) (hnone : n.lowered = none) (h : Marks S g g')
    (hS : ∀ i, i ∈ S ↔ i = id ∧ n.kind.direct = true) (hsame : ∀ i, g'.operator? i = g.operator? i) (o : Operator)
    (k : Nat) : Places g { g'.update id fun n => { n with lowered := some o } with nextOperator := k } := by
  set g'' : Graph := { g'.update id fun n => { n with lowered := some o } with nextOperator := k } with hg''
  have hnode : ∀ j, g''.node? j =
      if id = j then (g'.node? j).map fun n => { n with lowered := some o } else g'.node? j :=
    fun j => node?_update g' id j _
  obtain ⟨n', hn', -⟩ := node_of_bare h.bare hn
  have hoperator : ∀ i, g''.operator? i = if id = i then some o else g.operator? i := by
    intro i
    rw [operator?, hnode]
    split_ifs with hid
    · rw [← hid, hn']
      rfl
    · exact hsame i
  have hmarks : Marks ∅ g' g'' := by
    refine .of_same ?_ (mark?_note id fun _ => rfl)
    have hbare : ∀ n : Node, { n with lowered := some o }.bare = n.bare := fun _ => rfl
    have hnodes : g''.nodes.map Node.bare = g'.nodes.map Node.bare := g'.map_update id hbare
    simp only [Graph.bare, hnodes]
    rfl
  refine ⟨(h.trans hmarks).congr fun i => ?_, fun {i x} hx => ?_⟩
  · rw [Set.union_empty, hS]
    constructor
    · rintro ⟨m, hm, hdirect, hm', hnoted⟩
      rw [hoperator] at hnoted
      split_ifs at hnoted with hid
      · subst hid
        obtain rfl := Option.some.inj (hn.symm.trans hm)
        exact ⟨rfl, hdirect⟩
      · exact absurd ((operator?_of_node hm).trans hm') hnoted
    · rintro ⟨rfl, hdirect⟩
      exact ⟨n, hn, hdirect, hnone, by rw [hoperator, if_pos rfl]; simp⟩
  · have hne : id ≠ i := by
      rintro rfl
      rw [operator?_of_node hn, hnone] at hx
      cases hx
    rw [hoperator, if_neg hne]
    exact hx

end Places

theorem lowerOver_places (hn : g.node? id = some n) (hnone : n.lowered = none) (hin : g.InputsIn n) {op : Reorg}
    (hkind : n.kind = .reorg op) (n₀ : Node) (a : Operator) :
    Places g (ending ((lowerOver id n₀ op a >>= noteLowered id) g)) := by
  have hdirect : op ≠ .diagToVector → Places g (ending (((do
      let p ← place id
      return .transform (← freshNumber) a op p n₀.size n₀.position) >>= noteLowered id : GraphM Operator) g)) := by
    intro hop
    have hmarks := place_marks hn hin
    obtain ⟨p, g₁, hplace, hquiet⟩ := place_quiet hn hin
    have hstep : (place id >>= fun p => do
        return .transform (← freshNumber) a op p n₀.size n₀.position : GraphM Operator) g =
        .ok (.transform g₁.nextOperator a op p n₀.size n₀.position)
          { g₁ with nextOperator := g₁.nextOperator + 1 } := by
      rw [step_ok hplace]
      rfl
    rw [hplace, ending_ok] at hmarks
    rw [step_ok hstep]
    refine .note hn hnone hmarks (fun i => ?_) (operator?_of_outline (outline_of_unplaced hquiet)) _ _
    have hkinds : n.kind.direct = true := hkind ▸ NodeKind.direct_reorg_iff.2 hop
    rw [Set.mem_singleton_iff, hkinds]
    simp
  cases op with
  | transpose => exact hdirect (by simp)
  | diagToMatrix => exact hdirect (by simp)
  | diagToVector =>
    refine .note hn hnone (.refl g) (fun i => ?_) (fun _ => rfl) _ _
    rw [hkind]
    simp [NodeKind.direct]

/-- **Lowering leaves verdicts** at the nodes that it lowers to a direct operator, whether it succeeds or fails. -/
theorem lower_places (hg : g.Kept) (id : NodeId) : Places g (ending (lower id g)) := by
  induction hk : id.index using Nat.strong_induction_on generalizing id with
  | _ k ih =>
    cases hn : g.node? id with
    | none =>
      rw [lower, step_error (node_error hn)]
      exact .refl g
    | some n =>
      cases hlowered : n.lowered with
      | some o =>
        rw [lower, step_ok (node_ok hn), hlowered]
        exact .refl g
      | none =>
        rcases lower_fresh_cases hg.earlier hn hlowered with ⟨hkind, hlower, -⟩ |
          ⟨op, input, hkind, hinputs, hlt, hlower, -⟩ | ⟨fault, hlower, -⟩
        · rw [hlower]
          refine .note hn hlowered (.refl g) (fun i => ?_) (fun _ => rfl) _ _
          rw [hkind]
          simp [NodeKind.direct]
        · -- first the input, which comes before the node and leaves it without an operator
          rw [hlower]
          have hfirst := ih input.index (hk ▸ hlt) input rfl
          have hlater := (lower_notes input hg).1.later id hlt
          refine ending_bind (R := Places) .trans hfirst fun a g₁ hrun h₁ => ?_
          rw [hrun, ending_ok, operator?_of_node hn, hlowered] at hlater
          obtain ⟨n₁, hn₁, hsame⟩ := node_of_bare h₁.marks.bare hn
          obtain ⟨-, hkind₁, -⟩ := Node.of_bare hsame
          exact lowerOver_places hn₁ ((operator?_of_node hn₁).symm.trans hlater)
            ((hg.inputsIn hn).of_bare h₁.marks.bare hsame) (hkind₁.trans hkind) n a
        · rw [hlower]
          exact .refl g

theorem lowers_place (hg : g.Kept) (ids : List NodeId) : Places g (ending (ids.mapM lower g)) := by
  induction ids generalizing g with
  | nil => exact .refl g
  | cons id ids ih =>
    rw [List.mapM_cons]
    refine ending_bind (R := Places) .trans (lower_places hg id) fun o g₁ hrun _ => ?_
    have hkept : g₁.Kept := by
      have hchanges := (lower_notes id hg).1.changes
      rw [hrun] at hchanges
      exact hchanges.kept hg
    exact ending_bind (R := Places) .trans (ih hkept) fun os g₂ _ _ => .refl g₂

theorem lowerAll_places (hg : g.Kept) : Places g (ending (lowerAll g)) := by
  rw [lowerAll_eq]
  exact ending_bind (R := Places) .trans (lowers_place hg g.sinks) fun os g' _ _ => .refl g'

/-! ## Queries -/

/-- the nodes that a step decides: the one that it places, and those that it lowers to a direct operator -/
def Decides (g : Graph) (op : GraphOp) : Set NodeId := {j | op.places j = true} ∪ LoweredDirect g (g.after op)

/-- a step that notes no operator decides what it places -/
theorem Marks.of_quiet {op : GraphOp} (h : Marks S g (g.after op)) (hS : ∀ i, i ∈ S ↔ op.places i = true)
    (hout : (g.after op).outline = g.outline) : Marks (g.Decides op) g (g.after op) := by
  refine h.congr fun i => ?_
  rw [Decides, loweredDirect_of_same (operator?_of_outline hout), Set.union_empty, hS]
  rfl

/-- **A query decides the nodes that it places or lowers so**, and no others, whether it succeeds or fails. -/
theorem after_marks (hg : g.Kept) {q : GraphOp} (hq : q.isQuery = true) : Marks (g.Decides q) g (g.after q) := by
  have hbare : (g.after q).bare = g.bare := (after_alike hg.earlier hq).bare
  have hlowering : (∀ j, q.places j = false) → Places g (g.after q) → Marks (g.Decides q) g (g.after q) := by
    intro hplaces h
    refine h.marks.congr fun i => ?_
    simp only [Decides, hplaces, Bool.false_eq_true, Set.ofPred_false, Set.empty_union]
  cases q with
  | outputBytes id =>
    have hmark : (g.after (.outputBytes id)).mark? = g.mark? := by
      rw [after, GraphOp.perform, ending_map, mark?_outputBytes]
    refine (Marks.of_same hbare hmark).of_quiet (fun i => by simp [GraphOp.places]) ?_
    rw [after, GraphOp.perform, ending_map]
    exact outline_quiet (fun hn => step_error (node_error hn)) fun n hn => outputBytes_quiet hn
  | memoryBytes id =>
    have hmark : (g.after (.memoryBytes id)).mark? = g.mark? := by
      rw [after, GraphOp.perform, ending_map, mark?_memoryBytes]
    refine (Marks.of_same hbare hmark).of_quiet (fun i => by simp [GraphOp.places]) ?_
    rw [after, GraphOp.perform, ending_map]
    exact outline_quiet (fun hn => step_error (node_error hn)) fun n hn => memoryBytes_quiet hn (hg.inputsIn hn)
  | place id =>
    have hmarks : Marks {id} g (g.after (.place id)) := by
      rw [after, GraphOp.perform, ending_map]
      cases hn : g.node? id with
      | some n => exact place_marks hn (hg.inputsIn hn)
      | none =>
        have hplace : place id g = .error (.unknownNode id) g := step_error (node_error hn)
        rw [hplace]
        refine ⟨rfl, fun i hi => ?_, fun _ _ => rfl⟩
        rw [ending_error, Set.mem_singleton_iff.1 hi, mark?, verdict?, hn]
        rfl
    refine hmarks.of_quiet (fun i => by simp [GraphOp.places, eq_comm]) ?_
    rw [after, GraphOp.perform, ending_map]
    exact outline_quiet (fun hn => step_error (node_error hn)) fun n hn => place_quiet hn (hg.inputsIn hn)
  | lower id =>
    refine hlowering (fun _ => rfl) ?_
    rw [after, GraphOp.perform, ending_map]
    exact lower_places hg id
  | lowerAll =>
    refine hlowering (fun _ => rfl) ?_
    rw [after, GraphOp.perform, ending_map]
    exact lowerAll_places hg
  | _ => cases hq

end Graph

end MatrixEngine
