/-
The sizes derived for the nodes of a graph are those of their values.

A size describes a matrix if whatever it knows is so (`SizeInfo.Describes`), the number of cells that are not zero
included. The formula of each reorganisation goes from a size that describes its input to one that describes its result
(`Reorg.outputSize_describes`). Deriving all sizes in the order of the nodes leaves each reorganisation with the size that
follows from that of its first input (`Kept.derived_refreshedBelow`), since a later step touches neither of them. From there
it is an induction along the inputs (`refreshAll_describes`).
-/
import MatrixEngine.Proofs.Block.NonZeros
import MatrixEngine.Proofs.Number.Sums
import MatrixEngine.Proofs.Plan.Meaning
import MatrixEngine.Proofs.Plan.Reached

namespace MatrixEngine

open Cell

variable {α : Type} [Cell α]

/-- whatever is known of a matrix is so -/
structure SizeInfo.Describes (s : SizeInfo) (a : Grid α) : Prop where
  rows : ∀ r, s.rows = some r → a.rows = r
  cols : ∀ c, s.cols = some c → a.cols = c
  nnz : ∀ k, s.nnz = some k → a.nonZeros = k

/-- what is known of a matrix is so of any block that shows it, with the count of its buffer -/
theorem SizeInfo.Describes.of_shows {s : SizeInfo} {a : Grid α} (h : s.Describes a) {d : Dense α} (hd : d.Shows a) :
    (∀ r, s.rows = some r → d.rows = r) ∧ (∀ c, s.cols = some c → d.cols = c) ∧
      ∀ k, s.nnz = some k → countNonZero d.values = k :=
  ⟨fun r hr => hd.rows.trans (h.rows r hr), fun c hc => hd.cols.trans (h.cols c hc),
    fun k hk => hd.countNonZero_eq.trans (h.nnz k hk)⟩

/-- **The formula of a reorganisation is sound**: what follows from what is known of the input is so of the result. -/
theorem Reorg.outputSize_describes {op : Reorg} {a b : Grid α} {s t : SizeInfo} (hs : s.Describes a)
    (h : op.meaning? a = some b) (ht : op.outputSize s = (t.rows, t.cols, t.nnz)) : t.Describes b := by
  cases op with
  | transpose =>
    obtain rfl := Option.some.inj h
    simp only [outputSize, Prod.mk.injEq] at ht
    obtain ⟨hrows, hcols, hnnz⟩ := ht
    exact ⟨fun r hr => hs.cols r (hrows.trans hr), fun c hc => hs.rows c (hcols.trans hc),
      fun k hk => a.nonZeros_transpose.trans (hs.nnz k (hnnz.trans hk))⟩
  | diagToMatrix =>
    rw [meaning?] at h
    split_ifs at h with hv
    obtain rfl := Option.some.inj h
    simp only [outputSize, Prod.mk.injEq] at ht
    obtain ⟨hrows, hcols, hnnz⟩ := ht
    have hside : ∀ k, (outputSize .diagToMatrix s).1 = some k → max a.rows a.cols = k := by
      intro k hk
      obtain ⟨⟨r, c⟩, hdims, rfl⟩ := Option.map_eq_some_iff.1 hk
      obtain ⟨hr, hc⟩ := SizeInfo.dims?_eq_some_iff.1 hdims
      rw [hs.rows r hr, hs.cols c hc]
    exact ⟨fun r hr => hside r (hrows.trans hr), fun c hc => hside c (hcols.trans hc),
      fun k hk => (Grid.nonZeros_alongDiagonal hv).trans (hs.nnz k (hnnz.trans hk))⟩
  | diagToVector =>
    rw [meaning?] at h
    split_ifs at h with hsquare
    obtain rfl := Option.some.inj h
    simp only [outputSize, Prod.mk.injEq] at ht
    obtain ⟨hrows, hcols, hnnz⟩ := ht
    refine ⟨fun r hr => hs.rows r (hrows.trans hr), fun c hc => Option.some.inj (hcols.trans hc), fun k hk => ?_⟩
    -- how many of the cells stand on the diagonal is not known
    rw [← hnnz] at hk
    cases hk

/-- a node with its size derived anew: it is the same but for what is known of its size, and the same altogether if
nothing derives its size -/
structure Node.Refreshed (n n' : Node) : Prop where
  frame : n' = { n with size := { n.size with rows := n'.size.rows, cols := n'.size.cols, nnz := n'.size.nnz } }
  stays : n.kind = .input ∨ n.inputs = [] → n' = n

namespace Node.Refreshed

variable {n n' n'' : Node}

theorem refl (n : Node) : n.Refreshed n := ⟨rfl, fun _ => rfl⟩

theorem kind (h : n.Refreshed n') : n'.kind = n.kind := by rw [h.frame]

theorem inputs (h : n.Refreshed n') : n'.inputs = n.inputs := by rw [h.frame]

theorem trans (h : n.Refreshed n') (h' : n'.Refreshed n'') : n.Refreshed n'' := by
  refine ⟨h'.frame.trans (by rw [h.frame]), fun hn => ?_⟩
  obtain rfl := h.stays hn
  exact h'.stays hn

end Node.Refreshed

namespace Graph

variable {g : Graph} {id i j : NodeId} {n : Node} {k : Nat}

/-! ## Sizes derived anew -/

theorem node?_refreshed (g : Graph) (id j : NodeId) : (g.refreshed id).node? j =
    if id = j then (g.node? j).map fun n => { n with size := g.refreshedSize n } else g.node? j := by
  unfold refreshed
  cases hn : g.node? id with
  | none =>
    split_ifs with hid
    · rw [← hid, hn]
      rfl
    · rfl
  | some n =>
    simp only [node?_update]
    split_ifs with hid
    · rw [← hid, hn]
      rfl
    · rfl

theorem refreshedSize_frame (g : Graph) (n : Node) : n.Refreshed { n with size := g.refreshedSize n } := by
  unfold refreshedSize
  split
  · rename_i op input rest hkind hinputs
    have hderives : ¬(n.kind = .input ∨ n.inputs = []) := by simp [hkind, hinputs]
    split
    · exact ⟨rfl, fun h => absurd h hderives⟩
    · exact .refl n
  · exact .refl n

/-- the graph with the sizes of the nodes of numbers below `k` derived anew, in their order -/
def refreshedBelow (g : Graph) (k : Nat) : Graph := (List.range k).foldl (fun g i => g.refreshed ⟨i⟩) g

theorem refreshAll_eq (g : Graph) : refreshAll g = .ok () (g.refreshedBelow g.nodes.size) := rfl

theorem refreshedBelow_succ (g : Graph) (k : Nat) : g.refreshedBelow (k + 1) = (g.refreshedBelow k).refreshed ⟨k⟩ := by
  rw [refreshedBelow, List.range_succ, List.foldl_append]
  rfl

theorem Kept.refreshedBelow (hg : g.Kept) (k : Nat) : (g.refreshedBelow k).Kept := by
  induction k with
  | zero => exact hg
  | succ k ih =>
    rw [refreshedBelow_succ]
    exact ih.adjust (outline_refreshed _ _)

/-- a node is the same but for what is known of its size -/
theorem refreshedBelow_frame (hn : g.node? i = some n) (k : Nat) :
    ∃ n', (g.refreshedBelow k).node? i = some n' ∧ n.Refreshed n' := by
  induction k with
  | zero => exact ⟨n, hn, .refl n⟩
  | succ k ih =>
    obtain ⟨n', hn', hsame⟩ := ih
    rw [refreshedBelow_succ, node?_refreshed, hn']
    split_ifs
    · exact ⟨_, rfl, hsame.trans (refreshedSize_frame _ n')⟩
    · exact ⟨n', rfl, hsame⟩

theorem node?_refreshedBelow (hn : g.node? i = some n) (k : Nat) : ∃ n', (g.refreshedBelow k).node? i = some n' ∧
    n'.kind = n.kind ∧ n'.inputs = n.inputs ∧ (n.kind = .input → n'.size = n.size) := by
  obtain ⟨n', hn', hsame⟩ := refreshedBelow_frame hn k
  exact ⟨n', hn', hsame.kind, hsame.inputs, fun h => congrArg Node.size (hsame.stays (Or.inl h))⟩

/-- if the node is a reorganisation its size is the one that follows from that of its first input -/
def Derived (g : Graph) (id : NodeId) : Prop :=
  ∀ {n op input m}, g.node? id = some n → n.kind = .reorg op → n.inputs.head? = some input → g.node? input = some m →
    op.outputSize m.size = (n.size.rows, n.size.cols, n.size.nnz)

/-- deriving the size of a node leaves it so, since the node is no input of its own -/
theorem Kept.derived_refreshed (hg : g.Kept) (id : NodeId) : (g.refreshed id).Derived id := by
  intro n' op input m hn' hkind hinput hm
  rw [node?_refreshed, if_pos rfl] at hn'
  obtain ⟨n, hn, rfl⟩ := Option.map_eq_some_iff.1 hn'
  have hkind : n.kind = .reorg op := hkind
  obtain ⟨rest, hinputs⟩ : ∃ rest, n.inputs = input :: rest := List.head?_eq_some_iff.1 hinput
  have hne : id ≠ input := by
    rintro rfl
    exact lt_irrefl _ (hg.earlier hn id (by rw [hinputs]; exact List.mem_cons_self))
  rw [node?_refreshed, if_neg hne] at hm
  simp only [refreshedSize, hkind, hinputs, hm]

/-- and it leaves earlier nodes alone, whose inputs are earlier still -/
theorem Kept.derived_of_lt (hg : g.Kept) (h : g.Derived j) (hlt : j.index < id.index) : (g.refreshed id).Derived j := by
  intro n op input m hn hkind hinput hm
  have hne : ∀ {i : NodeId}, i.index < id.index → id ≠ i := by
    rintro i hi rfl
    exact lt_irrefl _ hi
  rw [node?_refreshed, if_neg (hne hlt)] at hn
  have hearlier : input.index < j.index := hg.earlier hn input (List.mem_of_head? hinput)
  rw [node?_refreshed, if_neg (hne (hearlier.trans hlt))] at hm
  exact h hn hkind hinput hm

/-- **Deriving sizes in the order of the nodes** leaves all of them derived. -/
theorem Kept.derived_refreshedBelow (hg : g.Kept) (k : Nat) (hj : j.index < k) : (g.refreshedBelow k).Derived j := by
  induction k with
  | zero => cases hj
  | succ k ih =>
    rw [refreshedBelow_succ]
    rcases Nat.lt_succ_iff_lt_or_eq.1 hj with hlt | rfl
    · exact (hg.refreshedBelow k).derived_of_lt (ih hlt) hlt
    · exact (hg.refreshedBelow j.index).derived_refreshed j

/-! ## Sizes and values -/

variable {bound : String → Option (Block α)} {a : Grid α}

/-- what is declared of an input is so of the block that it is bound to -/
def Agrees (g : Graph) (bound : String → Option (Block α)) : Prop :=
  ∀ i n b, g.node? i = some n → n.kind = .input → bound n.name = some b → n.size.Describes b.grid

/-- a reorganisation that has a meaning has one input, which comes before it and has a meaning -/
theorem meaning?_reorg_cases {op : Reorg} (hn : g.node? id = some n) (hkind : n.kind = .reorg op)
    (ha : g.meaning? bound id = some a) : ∃ input a', n.inputs = [input] ∧ input.index < id.index ∧
      g.meaning? bound input = some a' ∧ op.meaning? a' = some a := by
  rcases hinputs : n.inputs with _ | ⟨input, _ | ⟨_, _⟩⟩
  · rw [meaning?, hn] at ha
    simp [hkind, hinputs] at ha
  · by_cases hlt : input.index < id.index
    · rw [meaning?_reorg hn hkind hinputs hlt] at ha
      obtain ⟨a', ha', hop⟩ := Option.bind_eq_some_iff.1 ha
      exact ⟨input, a', rfl, hlt, ha', hop⟩
    · rw [meaning?, hn] at ha
      simp [hkind, hinputs, hlt] at ha
  · rw [meaning?, hn] at ha
    simp [hkind, hinputs] at ha

/-- **The sizes derived for a graph are those of its values.** In any graph that steps lead to, deriving all sizes succeeds,
and under bindings with which the declared sizes of the inputs agree each node that has a meaning is left with a size that
describes it: its known rows and columns are those of its value, and its known count is the number of cells of the value,
or of any block that shows it, that are not zero. -/
theorem refreshAll_describes {config : PlannerConfig} (hg : g.Reached config) (hb : g.Agrees bound) :
    ∃ g', refreshAll g = .ok () g' ∧ ∀ id a, g.meaning? bound id = some a → ∃ n', g'.node? id = some n' ∧
      n'.size.Describes a ∧ ∀ d : Dense α, d.Shows a → (∀ r, n'.size.rows = some r → d.rows = r) ∧
        (∀ c, n'.size.cols = some c → d.cols = c) ∧ ∀ k, n'.size.nnz = some k → countNonZero d.values = k := by
  have hkept := hg.kept
  have hdescribes : ∀ id a, g.meaning? bound id = some a →
      ∃ n', (g.refreshedBelow g.nodes.size).node? id = some n' ∧ n'.size.Describes a := by
    intro id a ha
    induction hk : id.index using Nat.strong_induction_on generalizing id a with
    | _ k ih =>
      cases hn : g.node? id with
      | none =>
        rw [meaning?, hn] at ha
        cases ha
      | some n =>
        obtain ⟨n', hn', hkind', hinputs', hsize⟩ := node?_refreshedBelow hn g.nodes.size
        refine ⟨_, hn', ?_⟩
        cases hkind : n.kind with
        | input =>
          rw [meaning?_input hn hkind] at ha
          obtain ⟨b, hbound, rfl⟩ := Option.map_eq_some_iff.1 ha
          rw [hsize hkind]
          exact hb id n b hn hkind hbound
        | reorg op =>
          obtain ⟨input, a', hinputs, hlt, ha', hop⟩ := meaning?_reorg_cases hn hkind ha
          obtain ⟨m', hm', hdescribes⟩ := ih input.index (hk ▸ hlt) input a' ha' rfl
          have hderived : (g.refreshedBelow g.nodes.size).Derived id :=
            hkept.derived_refreshedBelow g.nodes.size (node?_eq_some_lt hn)
          have hfirst : n'.inputs.head? = some input := by
            rw [hinputs', hinputs]
            rfl
          exact Reorg.outputSize_describes hdescribes hop (hderived hn' (hkind'.trans hkind) hfirst hm')
  refine ⟨_, refreshAll_eq g, fun id a ha => ?_⟩
  obtain ⟨n', hn', hsize⟩ := hdescribes id a ha
  exact ⟨n', hn', hsize, fun d hd => hsize.of_shows hd⟩

/-- a vector of unknown shape along a diagonal, turned over, and its shape stated afterwards -/
def lateSteps : List GraphOp :=
  [.addInput "v" (.unknown 1000), .addReorg .diagToMatrix [⟨0⟩] {}, .addReorg .transpose [⟨1⟩] {},
    .resize ⟨0⟩ ⟨some 1, some 3, 1000, 1000, some 2⟩]

def late : Graph := (ofConfig {}).afterAll lateSteps

def gappedRow : Block Int := .dense ⟨1, 3, #[5, 0, 7], 2⟩

/-- derived anew, the size of the last node knows the three rows and the two cells of its value that are not zero -/
theorem late_sizes : ∃ g' n a, refreshAll late = .ok () g' ∧ g'.node? ⟨2⟩ = some n ∧ n.size.rows = some 3 ∧
    n.size.nnz = some 2 ∧ late.meaning? (fun _ => some gappedRow) ⟨2⟩ = some a ∧ a.rows = 3 ∧ a.nonZeros = 2 := by
  have hb : late.Agrees fun _ => some gappedRow := by
    rintro ⟨i⟩ n b hn hkind hbound
    obtain rfl := Option.some.inj hbound
    have hlt : i < 3 := node?_eq_some_lt hn
    obtain rfl | rfl | rfl : i = 0 ∨ i = 1 ∨ i = 2 := by omega
    · obtain rfl := Option.some.inj hn
      have hcount : gappedRow.grid.nonZeros = 2 := by decide
      refine ⟨fun r hr => Option.some.inj hr, fun c hc => Option.some.inj hc, fun k hk => ?_⟩
      exact hcount.trans (Option.some.inj hk)
    all_goals
      obtain rfl := Option.some.inj hn
      cases hkind
  obtain ⟨n₀, hn₀, hkind₀⟩ : ∃ n, late.node? ⟨0⟩ = some n ∧ n.kind = .input := ⟨_, rfl, rfl⟩
  obtain ⟨n₁, hn₁, hkind₁, hinputs₁⟩ : ∃ n, late.node? ⟨1⟩ = some n ∧ n.kind = .reorg .diagToMatrix ∧
      n.inputs = [⟨0⟩] := ⟨_, rfl, rfl, rfl⟩
  obtain ⟨n₂, hn₂, hkind₂, hinputs₂⟩ : ∃ n, late.node? ⟨2⟩ = some n ∧ n.kind = .reorg .transpose ∧
      n.inputs = [⟨1⟩] := ⟨_, rfl, rfl, rfl⟩
  have ha : late.meaning? (fun _ => some gappedRow) ⟨2⟩ =
      some ⟨3, 3, fun i j => gappedRow.grid.alongDiagonal.cell j i⟩ := by
    rw [meaning?_reorg hn₂ hkind₂ hinputs₂ (by decide), meaning?_reorg hn₁ hkind₁ hinputs₁ (by decide),
      meaning?_input hn₀ hkind₀]
    rfl
  obtain ⟨g', hrefresh, hsizes⟩ := refreshAll_describes (g := late) ⟨lateSteps, rfl⟩ hb
  obtain ⟨n, hn, hsize, -⟩ := hsizes ⟨2⟩ _ ha
  obtain ⟨hrows, hnnz⟩ : n.size.rows = some 3 ∧ n.size.nnz = some 2 := by
    obtain ⟨-, rfl⟩ := EStateM.Result.ok.inj hrefresh
    obtain rfl := Option.some.inj hn
    exact ⟨rfl, rfl⟩
  exact ⟨g', n, _, hrefresh, hn, hrows, hnnz, ha, hsize.rows 3 hrows, hsize.nnz 2 hnnz⟩

end Graph

end MatrixEngine
