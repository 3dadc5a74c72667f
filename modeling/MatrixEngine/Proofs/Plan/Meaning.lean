/-
What a graph means, apart from any plan.

An input node means the matrix of its bound block, and a reorganisation what it makes of the meaning of its input, where
that is defined. The dimensions that the planner derives for a node are those of its meaning (`meaning?_dims`).
-/
import MatrixEngine.Proofs.Physical.Reorganised
import MatrixEngine.Proofs.Plan.Built

namespace MatrixEngine

variable {α : Type} [Cell α]

theorem SizeInfo.dims?_eq_some_iff {s : SizeInfo} {r c : Nat} :
    s.dims? = some (r, c) ↔ s.rows = some r ∧ s.cols = some c := by
  obtain ⟨rows, cols, _, _, _⟩ := s
  cases rows <;> cases cols <;> simp [dims?]

/-- the dimensions of a reorganised matrix are those derived from the dimensions of its input -/
theorem Reorg.meaning?_dims {op : Reorg} {a b : Grid α} {s t : SizeInfo} (h : op.meaning? a = some b)
    (hs : s.dims? = some (a.rows, a.cols)) (ht : op.outputSize s = (t.rows, t.cols, t.nnz)) :
    t.dims? = some (b.rows, b.cols) := by
  obtain ⟨hrows, hcols⟩ := SizeInfo.dims?_eq_some_iff.1 hs
  refine SizeInfo.dims?_eq_some_iff.2 ?_
  cases op with
  | transpose =>
    obtain rfl := Option.some.inj h
    rw [outputSize, hrows, hcols, Prod.mk.injEq, Prod.mk.injEq] at ht
    exact ⟨ht.1.symm, ht.2.1.symm⟩
  | diagToMatrix =>
    rw [meaning?] at h
    split_ifs at h with hv
    obtain rfl := Option.some.inj h
    rw [outputSize, hs, Option.map_some, Prod.mk.injEq, Prod.mk.injEq] at ht
    exact ⟨ht.1.symm, ht.2.1.symm⟩
  | diagToVector =>
    rw [meaning?] at h
    split_ifs at h with hsquare
    obtain rfl := Option.some.inj h
    rw [outputSize, hrows, Prod.mk.injEq, Prod.mk.injEq] at ht
    exact ⟨ht.1.symm, ht.2.1.symm⟩

namespace Graph

/-- what a node means under a lookup of bound blocks, if it is defined -/
def meaning? (g : Graph) (bound : String → Option (Block α)) (id : NodeId) : Option (Grid α) :=
  match g.node? id with
  | none => none
  | some n =>
    match n.kind, n.inputs with
    | .input, _ => (bound n.name).map Block.grid
    | .reorg op, [input] =>
      if _h : input.index < id.index then (meaning? g bound input).bind op.meaning? else none
    | .reorg _, _ => none
termination_by id.index

variable {g : Graph} {bound : String → Option (Block α)} {id input : NodeId} {n : Node}

theorem meaning?_input (hn : g.node? id = some n) (hkind : n.kind = .input) :
    g.meaning? bound id = (bound n.name).map Block.grid := by
  rw [meaning?, hn]
  simp only [hkind]

theorem meaning?_reorg {op : Reorg} (hn : g.node? id = some n) (hkind : n.kind = .reorg op)
    (hinputs : n.inputs = [input]) (hlt : input.index < id.index) :
    g.meaning? bound id = (g.meaning? bound input).bind op.meaning? := by
  rw [meaning?, hn]
  simp only [hkind, hinputs, dif_pos hlt]

/-- a graph whose sinks are defined is defined at every node -/
theorem meaning?_isSome (hg : g.Sound) (hsinks : ∀ id ∈ g.sinks, (g.meaning? bound id).isSome) :
    ∀ id n, g.node? id = some n → (g.meaning? bound id).isSome := by
  refine hg.induct_consumers (fun i n hi hparents => ?_) fun i p m op hm hop hinputs hp => ?_
  · exact hsinks i (hg.mem_sinks.2 ⟨n, hi, hparents⟩)
  · rw [meaning?_reorg hm hop hinputs (hg.input hm hop hinputs).1] at hp
    exact Option.isSome_of_isSome_bind hp

variable [DecidableEq α]

/-- every input node is bound to a well-formed block, which has the dimensions that are declared -/
def Binds (g : Graph) (bound : String → Option (Block α)) : Prop :=
  ∀ {i n}, g.node? i = some n → n.kind = .input →
    ∃ b, bound n.name = some b ∧ b.WellFormed ∧ n.size.dims? = some (b.rows, b.cols)

/-- **The derived dimensions of a node are those of its meaning.** -/
theorem meaning?_dims (hg : g.Sound) (hb : g.Binds bound) {a : Grid α} (hn : g.node? id = some n)
    (ha : g.meaning? bound id = some a) : n.size.dims? = some (a.rows, a.cols) := by
  induction hk : id.index using Nat.strong_induction_on generalizing id n a with
  | _ k ih =>
    cases hkind : n.kind with
    | input =>
      obtain ⟨b, hbound, -, hdims⟩ := hb hn hkind
      rw [meaning?_input hn hkind, hbound, Option.map_some, Option.some.injEq] at ha
      rw [hdims, ← ha]
      rfl
    | reorg op =>
      obtain ⟨input, m, hinputs, hlt, hm, hsize⟩ := hg.reorg hn hkind
      rw [meaning?_reorg hn hkind hinputs hlt] at ha
      obtain ⟨a', ha', hop⟩ := Option.bind_eq_some_iff.1 ha
      exact Reorg.meaning?_dims hop (ih input.index (hk ▸ hlt) hm ha' rfl) hsize

end Graph

end MatrixEngine
