/-
The plan of a graph computes what the graph means.

Every operator that a node may be lowered to computes the meaning of the node, whether it is a direct operator or the
chain of keyed cells (`plain_lowers`). So for a graph that is built by adding nodes lowering succeeds, the plan runs
exactly if the graph is defined at every node, and the results show what the sinks mean (`Graph.run_lowerAll`).
-/
import MatrixEngine.Proofs.Number.Sums
import MatrixEngine.Proofs.Plan.Lowered
import MatrixEngine.Proofs.Plan.Meaning

namespace MatrixEngine

open Cell Session

variable {α : Type} [Cell α]

theorem Computes.bind {r : Except EvalError (Dense α)} {m : Option (Grid α)} {f : Dense α → Except EvalError (Dense α)}
    {k : Grid α → Option (Grid α)} (h : Computes r m)
    (hf : ∀ d a, m = some a → d.Shows a → Computes (f d) (k a)) : Computes (r >>= f) (m.bind k) := by
  cases m with
  | none =>
    obtain ⟨e, rfl⟩ := h
    exact ⟨e, rfl⟩
  | some a =>
    obtain ⟨d, rfl, hd⟩ := h
    exact hf d a rfl hd

theorem Computes.shows_of_ok {r : Except EvalError (Dense α)} {m : Option (Grid α)} (h : Computes r m) {d : Dense α}
    (hr : r = .ok d) : ∃ a, m = some a ∧ d.Shows a := by
  subst hr
  cases m with
  | none =>
    obtain ⟨e, he⟩ := h
    cases he
  | some a =>
    obtain ⟨d', hd', hshows⟩ := h
    obtain rfl := Except.ok.inj hd'
    exact ⟨a, rfl, hshows⟩

namespace Session

variable [DecidableEq α] {bound : String → Option (Block α)} {g : Graph}

omit [DecidableEq α] in
theorem plain_data (number : Nat) (name : String) (output : SizeInfo) (position : Position) :
    plain bound (.data number name output position) = Value.apply bound (.data name) output [] := by
  rw [Operator.data, plain, plainAll]
  rfl

omit [DecidableEq α] in
/-- a data operator reads the block that is bound to its name, if the block has the dimensions that are declared -/
theorem plain_bound {name : String} {b : Block α} (hbound : bound name = some b) {declared : SizeInfo}
    (hfits : Value.fitsDeclared declared b.rows b.cols = true) (number : Nat) (position : Position) :
    plain bound (.data number name declared position) = .ok (.matrix b.toDense) := by
  rw [plain_data, Value.apply, hbound]
  simp only [hfits, if_true]

omit [DecidableEq α] in
theorem plainMatrix_of_plain {o : Operator} {r : Except EvalError (Dense α)} (h : plain bound o = r.map .matrix) :
    plainMatrix bound o = r := by
  rw [plainMatrix, h]
  cases r <;> rfl

omit [DecidableEq α] in
/-- an operator of one input computes from the value of that input -/
theorem plain_single (number : Nat) (kind : OperatorKind) (p : Placement) (output : SizeInfo) (c : Option Correction)
    (position : Position) (a : Operator) :
    plain bound ⟨number, kind, p, output, c, position, [a]⟩ =
      plain bound a >>= fun v => Value.apply bound kind output [v] := by
  rw [plain, plainAll, plainAll]
  cases plain bound a <;> rfl

omit [DecidableEq α] in
theorem plain_transform {a : Operator} {r : Except EvalError (Dense α)} (ha : plain bound a = r.map .matrix)
    (number : Nat) (op : Reorg) (p : Placement) (output : SizeInfo) (position : Position) :
    plain bound (.transform number a op p output position) = (r >>= Value.reorganise op).map .matrix := by
  rw [Operator.transform, plain_single, ha]
  cases r with
  | error e => rfl
  | ok d =>
    change (Value.reorganise op d >>= fun out => pure (Value.matrix out)) = (Value.reorganise op d).map .matrix
    cases Value.reorganise op d <;> rfl

omit [DecidableEq α] in
/-- the value of the chain of keyed cells, given the dimensions of its output -/
theorem plain_chain {a : Operator} {r : Except EvalError (Dense α)} (ha : plain bound a = r.map .matrix)
    {output : SizeInfo} {rows cols : Nat} (hdims : output.dims? = some (rows, cols)) (first second third : Nat)
    (p₁ p₂ p₃ : Placement) (c₁ c₃ : Option Correction) (position : Position) :
    plain bound ⟨third, .aggregate .sum, p₃, output, c₃, position,
        [.group second ⟨first, .partialAggregate .diagToVector .col, p₁, output, c₁, position, [a]⟩ p₂ output
          position]⟩ =
      (r >>= fun d => do Value.sumRuns (Value.sortByKey (← Value.diagonalCells d)) rows cols).map .matrix := by
  rw [plain_single, Operator.group, plain_single, plain_single, ha]
  cases r with
  | error e => rfl
  | ok d =>
    have hpartial : Value.apply bound (.partialAggregate .diagToVector .col) output [.matrix d] =
        (Value.diagonalCells d).map .cells := by
      change (Value.diagonalCells d >>= fun cs => pure (Value.cells cs)) = _
      cases Value.diagonalCells d <;> rfl
    have hgroup : ∀ cs, Value.apply bound .group output [.cells cs] = .ok (.cells (Value.sortByKey cs)) := fun _ => rfl
    have haggregate : ∀ cs, Value.apply bound (.aggregate .sum) output [.cells cs] =
        (Value.sumRuns cs rows cols).map .matrix := by
      intro cs
      rw [Value.apply, hdims]
      change (Value.sumRuns cs rows cols >>= fun out => pure (Value.matrix out)) = _
      cases Value.sumRuns cs rows cols <;> rfl
    change (Value.apply bound (.partialAggregate .diagToVector .col) output [.matrix d] >>= fun v =>
        Value.apply bound .group output [v]) >>= (fun v => Value.apply bound (.aggregate .sum) output [v]) =
      (Value.diagonalCells d >>= fun cs => Value.sumRuns (Value.sortByKey cs) rows cols).map .matrix
    rw [hpartial]
    cases Value.diagonalCells d with
    | error e => rfl
    | ok cs => exact haggregate (Value.sortByKey cs)

/-- **Every operator of a node computes the meaning of the node.** -/
theorem plain_lowers (hg : g.Sound) (hb : g.Binds bound) (hsum : ∀ v : α, sumStart + v = v) {id : NodeId}
    {o : Operator} (h : g.Lowers id o) :
    ∃ r, plain bound o = r.map .matrix ∧ Computes r (g.meaning? bound id) := by
  induction h with
  | @data id n number hn hkind =>
    obtain ⟨b, hbound, hwell, hdims⟩ := hb hn hkind
    refine ⟨.ok b.toDense, ?_, ?_⟩
    · obtain ⟨hrows, hcols⟩ := SizeInfo.dims?_eq_some_iff.1 hdims
      have hfits : Value.fitsDeclared n.size b.rows b.cols = true := by simp [Value.fitsDeclared, hrows, hcols]
      exact plain_bound hbound hfits number n.position
    · rw [Graph.meaning?_input hn hkind, hbound]
      exact ⟨_, rfl, hwell.toDense_shows⟩
  | @direct id input n op a number p hn hkind hinputs _ _ ih =>
    obtain ⟨r, hplain, hcomputes⟩ := ih
    rw [Graph.meaning?_reorg hn hkind hinputs (hg.input hn hkind hinputs).1]
    exact ⟨_, plain_transform hplain number op p n.size n.position,
      hcomputes.bind fun d a _ hd => Value.reorganise_computes hd op⟩
  | @chain id input n a first second third hn hkind hinputs _ ih =>
    obtain ⟨r, hplain, hcomputes⟩ := ih
    obtain ⟨hlt, m, hm, hsize⟩ := hg.input hn hkind hinputs
    rw [Graph.meaning?_reorg hn hkind hinputs hlt]
    cases hmeaning : g.meaning? bound input with
    | none =>
      rw [hmeaning] at hcomputes
      obtain ⟨e, rfl⟩ := hcomputes
      refine ⟨.error e, ?_, e, rfl⟩
      rw [plain_single, Operator.group, plain_single, plain_single, hplain]
      rfl
    | some a' =>
      -- the chain writes into the dimensions that were derived from those of its input
      have hdims : n.size.dims? = some (a'.rows, 1) := by
        obtain ⟨hrows, -⟩ := SizeInfo.dims?_eq_some_iff.1 (Graph.meaning?_dims hg hb hm hmeaning)
        rw [Reorg.outputSize, hrows, Prod.mk.injEq, Prod.mk.injEq] at hsize
        exact SizeInfo.dims?_eq_some_iff.2 ⟨hsize.1.symm, hsize.2.1.symm⟩
      refine ⟨_, plain_chain hplain hdims first second third _ _ _ _ _ n.position, ?_⟩
      rw [hmeaning] at hcomputes
      refine hcomputes.bind fun d a ha hd => ?_
      obtain rfl := Option.some.inj ha
      exact Value.diagonalChain_computes hsum hd

theorem plainMatrix_lowers (hg : g.Sound) (hb : g.Binds bound) (hsum : ∀ v : α, sumStart + v = v) {id : NodeId}
    {o : Operator} (h : g.Lowers id o) : Computes (plainMatrix bound o) (g.meaning? bound id) := by
  obtain ⟨r, hplain, hcomputes⟩ := plain_lowers hg hb hsum h
  exact plainMatrix_of_plain hplain ▸ hcomputes

end Session

/-- **End to end.** For a graph that is built by adding nodes, whatever the settings, and blocks bound to its inputs in
any representation: lowering succeeds; the plan runs exactly if every node has a meaning, and then its results show,
cell by cell, what the sinks mean, in their order. Adding to the empty sum must change nothing. -/
theorem Graph.run_lowerAll [DecidableEq α] [CellText α] {config : PlannerConfig} {g : Graph} (hg : g.Built config)
    {s : Session α} (hb : g.Binds s.bindings.get?) (hsum : ∀ v : α, sumStart + v = v) (started finished : Nat) :
    ∃ p g', lowerAll g = .ok p g' ∧
      ((∃ out s', run p started finished s = .ok out s') ↔
        ∀ id n, g.node? id = some n → (g.meaning? s.bindings.get? id).isSome) ∧
      ∀ out s', run p started finished s = .ok out s' →
        List.Forall₂ (fun id d => ∃ a, g.meaning? s.bindings.get? id = some a ∧ d.Shows a) g.sinks out.results := by
  obtain ⟨p, g', hlower, htell, hroots⟩ := lowerAll_lowers hg.sound
  have hcomputes : List.Forall₂ (fun id o => Computes (plainMatrix s.bindings.get? o) (g.meaning? s.bindings.get? id))
      g.sinks p.roots := hroots.imp fun _ _ h => plainMatrix_lowers hg.sound hb hsum h
  have hshows : ∀ {ds : List (Dense α)}, p.roots.mapM (plainMatrix s.bindings.get?) = .ok ds →
      List.Forall₂ (fun id d => ∃ a, g.meaning? s.bindings.get? id = some a ∧ d.Shows a) g.sinks ds := by
    intro ds hds
    exact Sequence.forall₂_comp hcomputes (Sequence.mapM_ok_iff.1 hds) fun h hd => h.shows_of_ok hd
  refine ⟨p, g', hlower, ⟨?_, fun hdefined => ?_⟩, fun out s' hrun => ?_⟩
  · rintro ⟨out, s', hrun⟩
    refine meaning?_isSome hg.sound fun id hid => ?_
    obtain ⟨d, -, a, ha, -⟩ := Sequence.exists_right
      (hshows ((run_plain htell started finished s out.results).1 ⟨out, s', hrun, rfl⟩)) hid
    rw [ha]
    rfl
  · cases hds : p.roots.mapM (plainMatrix s.bindings.get?) with
    | ok ds =>
      obtain ⟨out, s', hrun, -⟩ := (run_plain htell started finished s ds).2 hds
      exact ⟨out, s', hrun⟩
    | error e =>
      -- a root that fails is of a sink without a meaning
      obtain ⟨before, o, after, hsplit, -, hfail⟩ := Sequence.mapM_error_iff.1 hds
      obtain ⟨id, hid, ho⟩ := Sequence.exists_left hcomputes (hsplit ▸ List.mem_append_right _ List.mem_cons_self)
      obtain ⟨n, hn, -⟩ := hg.sound.mem_sinks.1 hid
      obtain ⟨a, ha⟩ := Option.isSome_iff_exists.1 (hdefined id n hn)
      rw [ha, hfail] at ho
      obtain ⟨d, hd, -⟩ := ho
      cases hd
  · exact hshows ((run_plain htell started finished s out.results).1 ⟨out, s', hrun, rfl⟩)

def diagonalGraph : Graph :=
  match (do Graph.addReorg .diagToVector [← Graph.addInput "X" ⟨some 2, some 2, 1000, 1000, none⟩] {})
    (Graph.ofConfig {}) with
  | .ok _ g => g
  | .error _ g => g

def squareSession : Session Int := { bindings := ⟨[("X", .dense ⟨2, 2, #[1, 2, 3, 0], 3⟩)]⟩ }

theorem diagonalGraph_built : diagonalGraph.Built {} := by
  have hinput := Graph.addInput_eq (Graph.ofConfig {}) "X" ⟨some 2, some 2, 1000, 1000, none⟩
  refine .reorg (.input .empty hinput) (?_ : Graph.addReorg .diagToVector [⟨0⟩] {} _ = .ok ⟨1⟩ diagonalGraph)
  rfl

theorem SameNumber.eq {a b : Int} (h : SameNumber a b) : a = b := h.eq_of_one_zero fun _ hv => beq_iff_eq.1 hv

/-- the diagonal of `[1, 2]` and `[3, 0]` as a column, by keyed cells -/
theorem diagonal_of_a_square : ∃ p g' out s', Graph.lowerAll diagonalGraph = .ok p g' ∧
    run p 0 0 squareSession = .ok out s' ∧
    ∃ d, out.results = [d] ∧ d.rows = 2 ∧ d.cols = 1 ∧ d.cell 0 0 = 1 ∧ d.cell 1 0 = 0 := by
  have hnode : ∀ id n, diagonalGraph.node? id = some n → id = ⟨0⟩ ∨ id = ⟨1⟩ := by
    rintro ⟨i⟩ n h
    have hlt : i < 2 := Graph.node?_eq_some_lt h
    have : i = 0 ∨ i = 1 := by omega
    simpa using this
  have hb : diagonalGraph.Binds squareSession.bindings.get? := by
    intro i n hn hkind
    rcases hnode i n hn with rfl | rfl
    · obtain rfl := Option.some.inj hn
      exact ⟨_, rfl, rfl, rfl⟩
    · obtain rfl := Option.some.inj hn
      cases hkind
  obtain ⟨p, g', hlower, hruns, hresults⟩ := Graph.run_lowerAll diagonalGraph_built hb Int.zero_add 0 0
  obtain ⟨n₀, hn₀, hname, hkind₀⟩ : ∃ n, diagonalGraph.node? ⟨0⟩ = some n ∧ n.name = "X" ∧ n.kind = .input :=
    ⟨_, rfl, rfl, rfl⟩
  obtain ⟨n₁, hn₁, hkind₁, hinputs₁⟩ : ∃ n, diagonalGraph.node? ⟨1⟩ = some n ∧ n.kind = .reorg .diagToVector ∧
      n.inputs = [⟨0⟩] := ⟨_, rfl, rfl, rfl⟩
  have hsquare : diagonalGraph.meaning? squareSession.bindings.get? ⟨0⟩ =
      some (Block.dense ⟨2, 2, #[1, 2, 3, 0], 3⟩).grid := by
    rw [Graph.meaning?_input hn₀ hkind₀, hname]
    rfl
  have hdiagonal : diagonalGraph.meaning? squareSession.bindings.get? ⟨1⟩ =
      some ⟨2, 1, fun i _ => (Block.dense ⟨2, 2, #[1, 2, 3, 0], 3⟩).grid.cell i i⟩ := by
    rw [Graph.meaning?_reorg hn₁ hkind₁ hinputs₁ (by decide), hsquare]
    rfl
  obtain ⟨out, s', hrun⟩ := hruns.2 fun id n hn => by
    rcases hnode id n hn with rfl | rfl
    · rw [hsquare]
      rfl
    · rw [hdiagonal]
      rfl
  have hall := hresults out s' hrun
  have hsinks : diagonalGraph.sinks = [⟨1⟩] := rfl
  rw [hsinks] at hall
  refine ⟨p, g', out, s', hlower, hrun, ?_⟩
  generalize out.results = ds at hall
  cases hall with
  | @cons _ d _ _ hshows hnil =>
    cases hnil
    obtain ⟨a, ha, hd⟩ := hshows
    obtain rfl := Option.some.inj (hdiagonal.symm.trans ha)
    exact ⟨d, rfl, hd.rows, hd.cols, (hd.cell 0 (by decide) 0 (by decide)).eq, (hd.cell 1 (by decide) 0 (by decide)).eq⟩

end MatrixEngine
