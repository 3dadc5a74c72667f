/-
One pass over the sizes is enough.

Deriving the size of a node that has it already changes nothing (`refreshed_of_derived`). A pass in the order of the
nodes leaves every size derived, since inputs come first, whatever sizes were overwritten before it. So a second pass
finds nothing to do, and the first one touches nothing of a node but what is known of its size (`refreshAll_settles`).
-/
import MatrixEngine.Proofs.Plan.Sizes

namespace MatrixEngine.Graph

variable {g : Graph} {id : NodeId}

theorem update_self {f : Node → Node} (hf : ∀ n, g.node? id = some n → f n = n) : g.update id f = g := by
  have hnodes : g.nodes.modify id.index f = g.nodes := by
    refine Array.ext_getElem? fun j => ?_
    rw [Array.getElem?_modify]
    split_ifs with hj
    · subst hj
      cases hn : g.nodes[id.index]? with
      | none => rfl
      | some n => exact congrArg some (hf n hn)
    · rfl
  rw [update, hnodes]

/-- a size that follows from the first input follows from it again -/
theorem refreshed_of_derived (h : g.Derived id) : g.refreshed id = g := by
  unfold refreshed
  split
  · rename_i n hn
    refine update_self fun m hm => ?_
    obtain rfl := Option.some.inj (hn.symm.trans hm)
    have hsize : g.refreshedSize n = n.size := by
      unfold refreshedSize
      split
      · rename_i op input rest hkind hinputs
        split
        · rename_i m hm
          have hderived := h hn hkind (by rw [hinputs]; rfl) hm
          simp only [hderived]
        · rfl
      · rfl
    rw [hsize]
  · rfl

/-- so a pass over derived sizes changes nothing -/
theorem refreshedBelow_of_derived (h : ∀ id, g.Derived id) (k : Nat) : g.refreshedBelow k = g := by
  induction k with
  | zero => rfl
  | succ k ih => rw [refreshedBelow_succ, ih, refreshed_of_derived (h ⟨k⟩)]

/-- a pass keeps the settings, the number of nodes and the number of the next operator -/
theorem refreshedBelow_outer (g : Graph) (k : Nat) : (g.refreshedBelow k).config = g.config ∧
    (g.refreshedBelow k).nodes.size = g.nodes.size ∧ (g.refreshedBelow k).nextOperator = g.nextOperator := by
  induction k with
  | zero => exact ⟨rfl, rfl, rfl⟩
  | succ k ih =>
    obtain ⟨hconfig, hsize, hnext⟩ := ih
    obtain ⟨hconfig', hsize'⟩ := refreshed_frame (g.refreshedBelow k) ⟨k⟩
    have hnext' := congrArg Graph.nextOperator (outline_refreshed (g.refreshedBelow k) ⟨k⟩)
    rw [refreshedBelow_succ]
    exact ⟨hconfig'.trans hconfig, hsize'.trans hsize, hnext'.trans hnext⟩

theorem Kept.derived_refreshAll (hg : g.Kept) (id : NodeId) : (g.refreshedBelow g.nodes.size).Derived id := by
  intro n op input m hn
  have hlt := node?_eq_some_lt hn
  rw [(g.refreshedBelow_outer g.nodes.size).2.1] at hlt
  exact hg.derived_refreshedBelow g.nodes.size hlt hn

/-- **One pass over the sizes is enough.** In every graph that steps lead to, with sizes of any nodes overwritten in any
order and with any number of inputs for a reorganisation, deriving all sizes succeeds, and then
- a reorganisation with an input has the rows, the columns and the count that follow from the size of its first input as
  that is now;
- deriving all sizes again changes nothing;
- nothing but rows, columns and counts has changed, and these not of input nodes and of nodes without an input. -/
theorem refreshAll_settles {config : PlannerConfig} (hg : g.Reached config) :
    ∃ g', refreshAll g = .ok () g' ∧
      (∀ id n op input, g'.node? id = some n → n.kind = .reorg op → n.inputs.head? = some input →
        ∃ m, g'.node? input = some m ∧ op.outputSize m.size = (n.size.rows, n.size.cols, n.size.nnz)) ∧
      refreshAll g' = .ok () g' ∧
      g'.config = g.config ∧ g'.nextOperator = g.nextOperator ∧ g'.nodes.size = g.nodes.size ∧
      ∀ id n, g.node? id = some n → ∃ rows cols nnz,
        g'.node? id = some { n with size := { n.size with rows := rows, cols := cols, nnz := nnz } } ∧
        (n.kind = .input ∨ n.inputs = [] → rows = n.size.rows ∧ cols = n.size.cols ∧ nnz = n.size.nnz) := by
  have hkept := hg.kept
  obtain ⟨hconfig, hsize, hnext⟩ := g.refreshedBelow_outer g.nodes.size
  refine ⟨_, refreshAll_eq g, ?_, ?_, hconfig, hnext, hsize, ?_⟩
  · intro id n op input hn hkind hinput
    obtain ⟨m, hm⟩ := (hkept.refreshedBelow g.nodes.size).inputsIn hn input (List.mem_of_head? hinput)
    exact ⟨m, hm, hkept.derived_refreshAll id hn hkind hinput hm⟩
  · rw [refreshAll_eq, refreshedBelow_of_derived hkept.derived_refreshAll]
  · intro id n hn
    obtain ⟨n', hn', hframe, hstays⟩ := refreshedBelow_frame hn g.nodes.size
    refine ⟨_, _, _, hn'.trans (congrArg some hframe), fun h => ?_⟩
    rw [hstays h]
    exact ⟨rfl, rfl, rfl⟩

/-- a vector along a diagonal, turned over beside the vector, and a diagonal of nothing; then the size of the vector is
stated, and that of the other nodes is overwritten -/
def overwrittenSteps : List GraphOp :=
  [.addInput "v" (.unknown 1000), .addReorg .diagToMatrix [⟨0⟩] {}, .addReorg .transpose [⟨1⟩, ⟨0⟩] {},
    .addReorg .diagToVector [] {}, .force ⟨2⟩ (some .distributed), .resize ⟨3⟩ ⟨some 7, some 1, 1000, 1000, none⟩,
    .resize ⟨2⟩ ⟨some 9, none, 500, 500, some 4⟩, .resize ⟨0⟩ ⟨some 1, some 3, 1000, 1000, some 2⟩]

def overwritten : Graph := (ofConfig {}).afterAll overwrittenSteps

/-- the turned node has the three rows of the diagonal again, with its own block size and its force, and the node
without an input the seven rows that were stated -/
theorem overwritten_settles : ∃ g' n m, refreshAll overwritten = .ok () g' ∧ refreshAll g' = .ok () g' ∧
    g'.node? ⟨2⟩ = some n ∧ n.size = ⟨some 3, some 3, 500, 500, some 2⟩ ∧ n.forced = some .distributed ∧
    g'.node? ⟨3⟩ = some m ∧ m.size.rows = some 7 := by
  obtain ⟨g', hrefresh, -, hagain, -, -, -, hsame⟩ := refreshAll_settles (g := overwritten) ⟨overwrittenSteps, rfl⟩
  obtain ⟨m, hm, hinputs, hrows⟩ : ∃ m, overwritten.node? ⟨3⟩ = some m ∧ m.inputs = [] ∧ m.size.rows = some 7 :=
    ⟨_, rfl, rfl, rfl⟩
  obtain ⟨rows, cols, nnz, hm', hstays⟩ := hsame ⟨3⟩ m hm
  obtain ⟨n, hn, hsize, hforced⟩ : ∃ n, g'.node? ⟨2⟩ = some n ∧ n.size = ⟨some 3, some 3, 500, 500, some 2⟩ ∧
      n.forced = some .distributed := by
    obtain ⟨-, rfl⟩ := EStateM.Result.ok.inj hrefresh
    exact ⟨_, rfl, rfl, rfl⟩
  exact ⟨g', n, _, hrefresh, hagain, hn, hsize, hforced, hm', (hstays (Or.inr hinputs)).1.trans hrows⟩

end MatrixEngine.Graph
