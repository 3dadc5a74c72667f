/-
How many operators a plan is said to have.

A description that is checked is reported with the operators below each of its roots, a run with the operators that it
evaluated. Both count an operator once below one root, however often it is used there; below several roots the first
counts it for each of them (`Command.operatorCount_eq`), the second once (`Program.size`).
- `Command.operatorCount_eq_size_iff`: hence they agree exactly if no operator is below two roots.
- `Graph.mem_walk_iff`: the operators below that of a node are those made for the nodes that are reached along inputs.
- `Graph.eq_of_below`, `Graph.exists_two_sinks`: if no node is the input of two, one sink is reached from each node, and
  otherwise there are two.
- `Command.counts_agree`: so they agree of the plan of a description exactly if no node is named as an input twice;
  `turned_apart_counted_four` is a description of which they do not.
-/
import Mathlib.Data.List.Dedup
import MatrixEngine.Command.Report
import MatrixEngine.Proofs.Number.Sums
import MatrixEngine.Proofs.Physical.Rebinding
import MatrixEngine.Proofs.Plan.Described
import MatrixEngine.Proofs.Plan.Edges
import MatrixEngine.Proofs.Plan.UnknownShapes

namespace MatrixEngine

/-! ## Two ways of counting -/

namespace Operator

theorem perm_dedup_distinct (ns : List Nat) : (distinct ns).Perm ns.dedup :=
  (List.perm_ext_iff_of_nodup (nodup_distinct ns) (List.nodup_dedup ns)).2 fun _ => mem_distinct.trans List.mem_dedup.symm

theorem length_distinct_le (ns : List Nat) : (distinct ns).length ≤ ns.length :=
  (perm_dedup_distinct ns).length_eq ▸ (List.dedup_sublist ns).length_le

theorem length_distinct_eq_iff {ns : List Nat} : (distinct ns).length = ns.length ↔ ns.Nodup := by
  rw [(perm_dedup_distinct ns).length_eq, ← List.dedup_eq_self]
  exact ⟨(List.dedup_sublist ns).eq_of_length, fun h => by rw [h]⟩

/-- the numbers of the operators below one, each once -/
def numbersBelow (o : Operator) : List Nat := distinct (o.walk.map (·.number))

/-- operators of which none below one has the number of one below the other -/
def Apart (a b : Operator) : Prop := ∀ x ∈ a.walk, ∀ y ∈ b.walk, x.number ≠ y.number

theorem Apart.symm {a b : Operator} (h : Apart a b) : Apart b a := fun x hx y hy hsame => h y hy x hx hsame.symm

theorem mem_numbersBelow {o : Operator} {k : Nat} : k ∈ o.numbersBelow ↔ ∃ x ∈ o.walk, x.number = k := by
  rw [numbersBelow, mem_distinct, List.mem_map]

end Operator

namespace Command

variable {p : Program}

theorem operatorCount_eq_length (p : Program) : operatorCount p = (p.roots.flatMap Operator.numbersBelow).length := by
  rw [operatorCount, Program.counts, List.flatMap_def, ← total_map_length, List.map_map]
  rfl

theorem size_eq (p : Program) : p.size = (Operator.distinct (p.roots.flatMap Operator.numbersBelow)).length := by
  refine (Operator.length_distinct (Operator.nodup_distinct _) fun k => ?_).symm
  simp only [Operator.mem_distinct, List.mem_flatMap, List.mem_map, Operator.mem_numbersBelow,
    Operator.mem_walkAll_iff_exists]
  constructor
  · rintro ⟨x, ⟨r, hr, hx⟩, hk⟩
    exact ⟨r, hr, x, hx, hk⟩
  · rintro ⟨r, hr, x, hx, hk⟩
    exact ⟨x, ⟨r, hr, hx⟩, hk⟩

theorem size_le_operatorCount (p : Program) : p.size ≤ operatorCount p := by
  rw [size_eq, operatorCount_eq_length]
  exact Operator.length_distinct_le _

/-- **Both counts agree exactly if no two roots have an operator in common.** -/
theorem operatorCount_eq_size_iff : operatorCount p = p.size ↔ p.roots.Pairwise Operator.Apart := by
  rw [size_eq, operatorCount_eq_length, eq_comm, Operator.length_distinct_eq_iff, List.nodup_flatMap]
  have hdisjoint : ∀ a b : Operator, List.Disjoint a.numbersBelow b.numbersBelow ↔ a.Apart b := by
    intro a b
    constructor
    · intro h x hx y hy hsame
      exact h (Operator.mem_numbersBelow.2 ⟨x, hx, rfl⟩) (Operator.mem_numbersBelow.2 ⟨y, hy, hsame.symm⟩)
    · intro h k ha hb
      obtain ⟨x, hx, hxk⟩ := Operator.mem_numbersBelow.1 ha
      obtain ⟨y, hy, hyk⟩ := Operator.mem_numbersBelow.1 hb
      exact h x hx y hy (hxk.trans hyk.symm)
  have hpairs : p.roots.Pairwise (Function.onFun List.Disjoint Operator.numbersBelow) ↔
      p.roots.Pairwise Operator.Apart :=
    ⟨.imp fun h => (hdisjoint _ _).1 h, .imp fun h => (hdisjoint _ _).2 h⟩
  rw [hpairs]
  exact and_iff_right fun r _ => Operator.nodup_distinct _

/-- the roots that an operator is below -/
def rootsAbove (p : Program) (k : Nat) : Nat := p.roots.countP fun r => k ∈ r.numbersBelow

/-- **The report of a check counts an operator once for each root that it is below.** -/
theorem operatorCount_eq (p : Program) : operatorCount p =
    total ((Operator.distinct ((Operator.walkAll p.roots).map (·.number))).map (rootsAbove p)) := by
  set all := Operator.distinct ((Operator.walkAll p.roots).map (·.number)) with hall
  have hroot : ∀ r ∈ p.roots, r.count = total (all.map fun k => if k ∈ r.numbersBelow then 1 else 0) := by
    intro r hr
    rw [total_indicator, List.countP_eq_length_filter]
    have hnodup : (all.filter fun k => k ∈ r.numbersBelow).Nodup := (Operator.nodup_distinct _).filter _
    refine Operator.length_distinct hnodup fun k => ?_
    rw [List.mem_filter, decide_eq_true_eq, Operator.numbersBelow, Operator.mem_distinct, Operator.mem_distinct]
    refine and_iff_right_of_imp fun hk => ?_
    obtain ⟨x, hx, hxk⟩ := List.mem_map.1 hk
    exact List.mem_map.2 ⟨x, Operator.mem_walkAll_iff_exists.2 ⟨r, hr, hx⟩, hxk⟩
  calc operatorCount p
      = total (p.roots.map fun r => total (all.map fun k => if k ∈ r.numbersBelow then 1 else 0)) := by
        rw [operatorCount, Program.counts, List.map_congr_left hroot]
    _ = total (all.map fun k => total (p.roots.map fun r => if k ∈ r.numbersBelow then 1 else 0)) :=
        total_comm (fun (r : Operator) (k : Nat) => if k ∈ r.numbersBelow then 1 else 0) p.roots all
    _ = total (all.map (rootsAbove p)) := by
        simp only [total_indicator]
        rfl

end Command

namespace Graph

open Operator (Apart)

variable {g : Graph} {i j s t : NodeId} {n : Node} {o a b x y : Operator}

/-! ## Operators below that of a node -/

/-- a node is reached from another along inputs -/
abbrev Below (g : Graph) : NodeId → NodeId → Prop := Relation.ReflTransGen g.Reads

/-- what is below the operator of a node was made for it, or is below the operator of its input -/
theorem MadeFor.mem_walk_iff {k : Nat} (h : g.MadeFor k n o) (hsource : n.kind = .input → n.inputs = []) :
    x ∈ o.walk ↔ x ∈ o.stages ∨ ∃ i ∈ n.inputs, ∃ a, g.operator? i = some a ∧ x ∈ a.walk := by
  cases h with
  | data hinput =>
    rw [hsource hinput]
    simp [Operator.data, Operator.walk, Operator.walkAll, Operator.stages]
  | @reorg op input a _ _ hinput ha hover =>
    have hinput' : (∃ i ∈ n.inputs, ∃ a, g.operator? i = some a ∧ x ∈ a.walk) ↔ x ∈ a.walk := by
      rw [hinput]
      simp [ha]
    rw [hinput']
    cases hover with
    | direct =>
      simp only [Operator.transform, Operator.walk, Operator.walkAll, Operator.stages, List.append_nil, List.mem_append,
        List.mem_singleton]
      tauto
    | chain =>
      simp only [Operator.group, Operator.walk, Operator.walkAll, Operator.stages, List.append_nil, List.mem_append,
        List.flatMap_cons, List.flatMap_nil, List.mem_cons, List.not_mem_nil, or_false]
      tauto

/-- **The operators below that of a node are those made for the nodes that are reached from it along inputs.** -/
theorem mem_walk_iff (hg : g.Kept) (ho : g.operator? s = some o) :
    x ∈ o.walk ↔ ∃ i a, g.Below s i ∧ g.operator? i = some a ∧ x ∈ a.stages := by
  induction hk : s.index using Nat.strong_induction_on generalizing s o with
  | _ k ih =>
    obtain ⟨n, hn, hlowered⟩ := operator?_eq_some_iff.1 ho
    obtain ⟨first, hmade⟩ := hg.noted hn hlowered
    rw [hmade.mem_walk_iff (hg.source hn)]
    constructor
    · rintro (hx | ⟨i, hi, a, ha, hx⟩)
      · exact ⟨s, o, .refl, ho, hx⟩
      · obtain ⟨j, b, hbelow, hb, hxb⟩ := (ih i.index (hk ▸ hg.earlier hn i hi) ha rfl).1 hx
        exact ⟨j, b, .head ⟨n, hn, hi⟩ hbelow, hb, hxb⟩
    · rintro ⟨j, b, hbelow, hb, hxb⟩
      rcases hbelow.cases_head with rfl | ⟨i, ⟨m, hm, hi⟩, hbelow⟩
      · obtain rfl := Option.some.inj (ho.symm.trans hb)
        exact .inl hxb
      · obtain rfl := Option.some.inj (hn.symm.trans hm)
        obtain ⟨a, ha, -⟩ := hmade.input_mem_walk (hg.source hn) hi
        exact .inr ⟨i, hi, a, ha, (ih i.index (hk ▸ hg.earlier hn i hi) ha rfl).2 ⟨j, b, hbelow, hb, hxb⟩⟩

theorem eq_of_number (hg : g.Kept) (ha : g.operator? i = some a) (hb : g.operator? j = some b) (hx : x ∈ a.stages)
    (hy : y ∈ b.stages) (hsame : x.number = y.number) : i = j := by
  have hnumber : ∀ {i a x}, g.operator? i = some a → x ∈ a.stages →
      ∃ n ∈ g.nodes.toList, n.id = i ∧ x.number ∈ n.made.map (·.number) := by
    intro i a x ha hx
    obtain ⟨n, hn, hlowered⟩ := operator?_eq_some_iff.1 ha
    refine ⟨n, Array.mem_toList_iff.2 (Array.mem_of_getElem? hn), hg.id hn, List.mem_map_of_mem ?_⟩
    simpa [Node.made, hlowered] using hx
  obtain ⟨n, hn, rfl, hxn⟩ := hnumber ha hx
  obtain ⟨m, hm, rfl, hym⟩ := hnumber hb hy
  have hnodup := hg.nodup
  rw [made, List.map_flatMap, List.nodup_flatMap] at hnodup
  by_contra hne
  have : Std.Symm (Function.onFun List.Disjoint fun n : Node => n.made.map (·.number)) :=
    ⟨fun _ _ h => List.Disjoint.symm h⟩
  exact hnodup.2.forall hn hm (fun h => hne (congrArg Node.id h)) hxn (hsame ▸ hym)

/-! ## Sinks above a node -/

/-- no node is listed as an input by two -/
def Solitary (g : Graph) : Prop := ∀ i p q, g.Reads p i → g.Reads q i → p = q

theorem Below.index_le (hg : g.Kept) (h : g.Below s i) : i.index ≤ s.index := by
  induction h with
  | refl => exact le_rfl
  | tail _ hlast ih =>
    obtain ⟨m, hm, hi⟩ := hlast
    exact (hg.earlier hm _ hi).le.trans ih

theorem not_reads_sink (hg : g.Kept) (hl : g.Linked) (hs : s ∈ g.sinks) (p : NodeId) : ¬ g.Reads p s := by
  rintro ⟨m, hm, hin⟩
  exact ((hl.mem_sinks hg s).1 hs).2 p m hm hin

/-- **if no node is the input of two, one sink is reached from each node** -/
theorem eq_of_below (hg : g.Kept) (hl : g.Linked) (h : g.Solitary) (hs : s ∈ g.sinks) (ht : t ∈ g.sinks)
    (his : g.Below s i) (hit : g.Below t i) : s = t := by
  induction his with
  | refl =>
    rcases hit.cases_tail with rfl | ⟨p, -, hp⟩
    · rfl
    · exact absurd hp (not_reads_sink hg hl hs p)
  | tail _ hlast ih =>
    rcases hit.cases_tail with rfl | ⟨p, hbelow, hp⟩
    · exact absurd hlast (not_reads_sink hg hl ht _)
    · obtain rfl := h _ _ _ hp hlast
      exact ih hbelow

theorem exists_sink (hg : g.Kept) (hn : g.node? i = some n) : ∃ s ∈ g.sinks, g.Below s i := by
  have hlater : ∀ {i n p}, g.node? i = some n → p ∈ n.parents → ∃ m, g.node? p = some m ∧ i.index < p.index := by
    intro i n p hn hp
    obtain ⟨m, hm, hi⟩ := hg.consumer hn hp
    exact ⟨m, hm, hg.earlier hm i hi⟩
  refine induct_parents hlater (P := fun i => ∃ s ∈ g.sinks, g.Below s i) (fun i n hn hparents => ?_)
    (fun i n p hn hp habove => ?_) i n hn
  · exact ⟨i, (mem_sinks hg.id).2 ⟨n, hn, hparents⟩, .refl⟩
  · obtain ⟨s, hs, hbelow⟩ := habove
    exact ⟨s, hs, hbelow.tail (hg.consumer hn hp)⟩

/-- **two nodes with one input have different sinks above them**, since what is reached along inputs is one path -/
theorem exists_two_sinks (hg : g.Kept) (honce : ∀ {p n}, g.node? p = some n → n.inputs.length ≤ 1) {p q : NodeId}
    (hp : g.Reads p i) (hq : g.Reads q i) (hne : p ≠ q) :
    ∃ s ∈ g.sinks, ∃ t ∈ g.sinks, s ≠ t ∧ g.Below s i ∧ g.Below t i := by
  have hunique : Relator.RightUnique g.Reads := by
    rintro p x y ⟨m, hm, hx⟩ ⟨m', hm', hy⟩
    obtain rfl := Option.some.inj (hm.symm.trans hm')
    have hlength := honce hm
    obtain ⟨z, hz⟩ : ∃ z, m.inputs = [z] := List.length_eq_one_iff.1 (le_antisymm hlength (List.length_pos_of_mem hx))
    rw [hz, List.mem_singleton] at hx hy
    rw [hx, hy]
  -- a path from one reader goes on through the shared input, which comes before the other reader
  have hapart : ∀ {p q}, g.Reads p i → g.Reads q i → p ≠ q → ¬ g.Below p q := by
    intro p q hp hq hne hbelow
    rcases hbelow.cases_head with rfl | ⟨x, hx, hbelow⟩
    · exact hne rfl
    · obtain rfl := hunique hp hx
      obtain ⟨m, hm, hi⟩ := hq
      exact absurd (hg.earlier hm _ hi) (not_lt.2 (Below.index_le hg hbelow))
  obtain ⟨m, hm, -⟩ := id hp
  obtain ⟨m', hm', -⟩ := id hq
  obtain ⟨s, hs, hsp⟩ := exists_sink hg hm
  obtain ⟨t, ht, htq⟩ := exists_sink hg hm'
  refine ⟨s, hs, t, ht, ?_, hsp.tail hp, htq.tail hq⟩
  rintro rfl
  rcases Relation.ReflTransGen.total_of_right_unique hunique hsp htq with hbelow | hbelow
  · exact hapart hp hq hne hbelow
  · exact hapart hq hp hne.symm hbelow

/-- the operators of two sinks are apart exactly if no node is reached from both -/
theorem apart_iff (hg : g.Kept) (ha : g.operator? s = some a) (hb : g.operator? t = some b)
    (hlowered : ∀ {i n}, g.node? i = some n → ∃ o, g.operator? i = some o) :
    Apart a b ↔ ∀ i n, g.node? i = some n → ¬ (g.Below s i ∧ g.Below t i) := by
  constructor
  · rintro hapart i n hn ⟨hsi, hti⟩
    obtain ⟨o, ho⟩ := hlowered hn
    exact hapart o ((mem_walk_iff hg ha).2 ⟨i, o, hsi, ho, o.mem_stages⟩) o
      ((mem_walk_iff hg hb).2 ⟨i, o, hti, ho, o.mem_stages⟩) rfl
  · intro hnone x hx y hy hsame
    obtain ⟨i, c, hsi, hc, hxc⟩ := (mem_walk_iff hg ha).1 hx
    obtain ⟨j, d, htj, hd, hyd⟩ := (mem_walk_iff hg hb).1 hy
    obtain rfl := eq_of_number hg hc hd hxc hyd hsame
    obtain ⟨n, hn, -⟩ := operator?_eq_some_iff.1 hc
    exact hnone i n hn ⟨hsi, htj⟩

/-- **The roots of a plan of all sinks are apart exactly if no node is the input of two.** -/
theorem pairwise_apart_iff (hg : g.Kept) (hl : g.Linked) {roots : List Operator}
    (h : List.Forall₂ (fun id o => g.operator? id = some o) g.sinks roots) : roots.Pairwise Apart ↔ g.Solitary := by
  have hlowered : ∀ {i n}, g.node? i = some n → ∃ o, g.operator? i = some o := by
    intro i n hn
    obtain ⟨o, ho, -⟩ := operator_met hg h hn
    exact ⟨o, ho⟩
  have honce : ∀ {p n}, g.node? p = some n → n.inputs.length ≤ 1 := by
    intro p n hn
    obtain ⟨o, ho⟩ := hlowered hn
    obtain ⟨m, hm, hnoted⟩ := operator?_eq_some_iff.1 ho
    obtain rfl := Option.some.inj (hn.symm.trans hm)
    obtain ⟨k, hmade⟩ := hg.noted hn hnoted
    cases hmade with
    | data hinput => simp [hg.source hn hinput]
    | reorg _ hinputs => simp [hinputs]
  constructor
  · intro hapart i p q hp hq
    by_contra hne
    obtain ⟨s, hs, t, ht, hst, hsi, hti⟩ := exists_two_sinks hg honce hp hq hne
    obtain ⟨a, ha, hsa⟩ := Sequence.exists_right h hs
    obtain ⟨b, hb, htb⟩ := Sequence.exists_right h ht
    have hab : a ≠ b := by
      rintro rfl
      exact hst (eq_of_number hg hsa htb a.mem_stages a.mem_stages rfl)
    have : Std.Symm Apart := ⟨fun _ _ => Apart.symm⟩
    obtain ⟨m, hm, hi⟩ := hp
    obtain ⟨n, hn⟩ := hg.inputsIn hm i hi
    exact (apart_iff hg hsa htb hlowered).1 (hapart.forall ha hb hab) i n hn ⟨hsi, hti⟩
  · intro hsolitary
    refine Sequence.pairwise_of_forall₂ h (sinks_ascending hg) fun {s t a b} hs ht hlt hsa htb => ?_
    rw [apart_iff hg hsa htb hlowered]
    rintro i n - ⟨hsi, hti⟩
    obtain rfl := eq_of_below hg hl hsolitary hs ht hsi hti
    exact lt_irrefl _ hlt

theorem LowersTo.reads {g' : Graph} {k : Nat} (h : LowersTo k g g') : g'.Reads = g.Reads := by
  have hreads : ∀ {g g' : Graph}, g'.nodes.map Node.edges = g.nodes.map Node.edges →
      ∀ p i, g'.Reads p i → g.Reads p i := by
    rintro g g' h p i ⟨m', hm', hi⟩
    obtain ⟨m, hm, hsame⟩ := node_of_map h.symm hm'
    have hinputs : m.inputs = m'.inputs := show m.edges.inputs = m'.edges.inputs by rw [hsame]
    exact ⟨m, hm, hinputs ▸ hi⟩
  funext p i
  exact propext ⟨hreads h.edges p i, hreads h.edges.symm p i⟩

/-- **Both counts agree of the plan of a graph exactly if no node is the input of two.** -/
theorem counts_agree_iff {config : PlannerConfig} (hg : g.Reached config) {p : Program} {g' : Graph}
    (h : lowerAll g = .ok p g') : Command.operatorCount p = p.size ↔ g.Solitary := by
  obtain ⟨hlowers, hnoted⟩ := lowerAll_notes hg.kept
  rw [h, ending_ok] at hlowers
  have hroots : List.Forall₂ (fun id o => g'.operator? id = some o) g'.sinks p.roots :=
    hlowers.sinks ▸ hnoted p g' h
  have hreached : g'.Reached config := after_eq .lowerAll rfl h ▸ hg.after .lowerAll
  rw [Command.operatorCount_eq_size_iff, pairwise_apart_iff hreached.kept hreached.linked hroots, Solitary, Solitary,
    hlowers.reads]

end Graph

/-! ## Plans of descriptions -/

/-- the name that a node is described to take its input from -/
def DescribedNode.source? : DescribedNode → Option String
  | input .. => none
  | reorg _ _ source _ => some source

/-- the names that the nodes of a description take their inputs from -/
def Descriptor.sources (d : Descriptor) : List String := d.nodes.filterMap DescribedNode.source?

namespace Follows

variable {config : PlannerConfig} {ds : List DescribedNode} {g : NamedGraph}

theorem reads_iff (h : Follows config ds g) {p i : NodeId} : g.graph.Reads p i ↔
    ∃ d source, ds[p.index]? = some d ∧ d.source? = some source ∧ g.names.lookup source = some i := by
  constructor
  · rintro ⟨m, hm, hi⟩
    have hlt : p.index < ds.length := h.size ▸ Graph.node?_eq_some_lt hm
    obtain ⟨n, hn, hdescribes⟩ := h.node p.index ds[p.index] (List.getElem?_eq_getElem hlt)
    obtain rfl := Option.some.inj (hn.symm.trans hm)
    refine ⟨ds[p.index], ?_⟩
    obtain ⟨-, hdescribes⟩ := hdescribes
    cases hd : ds[p.index] with
    | input name rows cols nnz =>
      rw [hd] at hdescribes
      obtain ⟨-, -, hinputs, -⟩ := hdescribes
      rw [hinputs] at hi
      cases hi
    | reorg name op source placement =>
      rw [hd] at hdescribes
      obtain ⟨-, ⟨j, hlookup, hinputs⟩, -⟩ := hdescribes
      rw [hinputs, List.mem_singleton] at hi
      exact ⟨source, hd ▸ List.getElem?_eq_getElem hlt, rfl, hi ▸ hlookup⟩
  · rintro ⟨d, source, hd, hsource, hlookup⟩
    obtain ⟨n, hn, -, hdescribes⟩ := h.node p.index d hd
    cases d with
    | input => cases hsource
    | reorg name op source' placement =>
      obtain rfl := Option.some.inj hsource
      obtain ⟨-, ⟨j, hlookup', hinputs⟩, -⟩ := hdescribes
      obtain rfl := Option.some.inj (hlookup'.symm.trans hlookup)
      exact ⟨n, hn, hinputs ▸ List.mem_singleton_self j⟩

/-- no node of the graph is the input of two exactly if no name is named as an input twice -/
theorem solitary_iff (h : Follows config ds g) (hcoherent : Coherent ds) :
    g.graph.Solitary ↔ (ds.filterMap DescribedNode.source?).Nodup := by
  rw [List.Nodup, List.pairwise_filterMap, List.pairwise_iff_getElem]
  constructor
  · intro hsolitary k l hk hl hlt source hsource source' hsource' heq
    subst heq
    have hnamed : source ∈ ds.map DescribedNode.name := by
      cases hd : ds[k] with
      | input => rw [hd] at hsource; cases hsource
      | reorg name op source' placement =>
        obtain rfl : source' = source := by rw [hd] at hsource; exact Option.some.inj hsource
        have hbefore := hcoherent.source k name op source' placement (hd ▸ List.getElem?_eq_getElem hk)
        exact (List.map_subset _ (List.take_subset k ds)) hbefore
    obtain ⟨i, hlookup⟩ := h.exists_lookup hnamed
    have hreads : ∀ k (hk : k < ds.length), ds[k].source? = some source → g.graph.Reads ⟨k⟩ i := fun k hk hsource =>
      h.reads_iff.2 ⟨ds[k], source, List.getElem?_eq_getElem hk, hsource, hlookup⟩
    have hsame : k = l := congrArg NodeId.index (hsolitary i _ _ (hreads k hk hsource) (hreads l hl hsource'))
    exact hlt.ne hsame
  · intro hnodup i p q hp hq
    obtain ⟨d, source, hd, hsource, hlookup⟩ := h.reads_iff.1 hp
    obtain ⟨e, source', he, hsource', hlookup'⟩ := h.reads_iff.1 hq
    -- a node has one name
    have hsame : source = source' := by
      rw [h.names] at hlookup hlookup'
      obtain ⟨x, hx, hname⟩ := lookup_numbersOf_cases hlookup
      obtain ⟨y, hy, hname'⟩ := lookup_numbersOf_cases hlookup'
      obtain rfl := Option.some.inj (hx.symm.trans hy)
      exact hname.symm.trans hname'
    subst hsame
    obtain ⟨hpl, rfl⟩ := List.getElem?_eq_some_iff.1 hd
    obtain ⟨hql, rfl⟩ := List.getElem?_eq_some_iff.1 he
    obtain ⟨k⟩ := p
    obtain ⟨l⟩ := q
    rcases lt_trichotomy k l with hlt | rfl | hlt
    · exact absurd rfl (hnodup k l hpl hql hlt source hsource source hsource')
    · rfl
    · exact absurd rfl (hnodup l k hql hpl hlt source hsource' source hsource)

end Follows

namespace Command

variable {source : String} {environment : String → Option String} {d : Descriptor} {g : NamedGraph}

theorem planOf_eq {p : Program} {g' : Graph} (hparse : Descriptor.parse? source = some d)
    (hbuild : d.build (PlannerConfig.ofEnvironment environment) = .ok g) (h : Graph.lowerAll g.graph = .ok p g') :
    planOf source environment none = .ok ⟨g', p⟩ := by
  have hbuild' : (d.build (PlannerConfig.ofEnvironment environment)).mapError CommandError.plan = .ok g := by
    rw [hbuild]
    rfl
  have hrun : Graph.lowerAll.run g.graph = .ok p g' := h
  unfold planOf
  simp only [hparse, hbuild']
  rw [Sequence.bind_ok rfl]
  simp only [hrun]
  rfl

theorem operators_of_run {p : Program} (htell : Operator.NumbersTell p.roots) {s s' : Session Float}
    {started finished : Nat} {out : RunOutput Float} (hrun : Session.run p started finished s = .ok out s') :
    out.manifest.operators = p.size := by
  have hmemoised := Session.run_memoised htell started finished s
  cases hplain : p.roots.mapM (Session.plainMatrix s.bindings.get?) with
  | error e =>
    rw [hplain] at hmemoised
    obtain ⟨t, hfails, -⟩ := hmemoised
    rw [hrun] at hfails
    cases hfails
  | ok ds =>
    rw [hplain] at hmemoised
    obtain ⟨out', t, hrun', -, -, hcount⟩ := hmemoised
    obtain ⟨rfl, -⟩ := EStateM.Result.ok.inj (hrun.symm.trans hrun')
    exact hcount

/-- **How many operators the plan of a description is said to have.** A text that describes a graph has a plan. Every
successful run of the plan, in whatever session and at whatever times, reports the operators of the plan, each once. The
report of a check counts each operator once for each root that it is below, which is no less, and is the same exactly if no
two nodes are described to take their input from one name. -/
theorem counts_agree (hparse : Descriptor.parse? source = some d)
    (hbuild : d.build (PlannerConfig.ofEnvironment environment) = .ok g) :
    ∃ planned, planOf source environment none = .ok planned ∧
      (∀ (s s' : Session Float) started finished out, Session.run planned.program started finished s = .ok out s' →
        out.manifest.operators = planned.program.size) ∧
      operatorCount planned.program = total ((Operator.distinct ((Operator.walkAll planned.program.roots).map
        (·.number))).map (rootsAbove planned.program)) ∧
      planned.program.size ≤ operatorCount planned.program ∧
      (operatorCount planned.program = planned.program.size ↔ d.sources.Nodup) := by
  obtain ⟨haccepted, config, -, hfollows⟩ := Descriptor.accepted_of_build hbuild
  obtain ⟨p, g', hlower, htell, -⟩ := Graph.lowerAll_lowers hfollows.sound
  refine ⟨⟨g', p⟩, planOf_eq hparse hbuild hlower, fun s s' started finished out hrun => operators_of_run htell hrun,
    operatorCount_eq p, size_le_operatorCount p, ?_⟩
  rw [Graph.counts_agree_iff hfollows.reached hlower, hfollows.solitary_iff haccepted.coherent, Descriptor.sources]

/-- what a check and a run of the described graph report, with one block bound -/
def countsOf (source name : String) (b : Block Float) : Option (Nat × Nat) :=
  match planOf source (fun _ => none) none with
  | .error _ => none
  | .ok planned =>
    match Session.run planned.program 0 0 { bindings := ⟨[(name, b)]⟩ } with
    | .error _ _ => none
    | .ok out _ => some (operatorCount planned.program, out.manifest.operators)

theorem of_countsOf {name : String} {b : Block Float} {checked evaluated : Nat}
    (h : countsOf source name b = some (checked, evaluated)) :
    ∃ planned out s', planOf source (fun _ => none) none = .ok planned ∧
      Session.run planned.program 0 0 { bindings := ⟨[(name, b)]⟩ } = .ok out s' ∧
      operatorCount planned.program = checked ∧ out.manifest.operators = evaluated := by
  unfold countsOf at h
  split at h
  · cases h
  · rename_i planned hplan
    split at h
    · cases h
    · rename_i out s' hrun
      obtain ⟨rfl, rfl⟩ := Prod.mk.inj (Option.some.inj h)
      exact ⟨planned, out, s', hplan, hrun, rfl, rfl⟩

/-- a cell `X`, its transpose `a`, and the transpose of one of these -/
def twoTurns (again : String) : String :=
  "nodes:\n- input:\n    name: X\n    rows: 1\n    cols: 1\n- reorg:\n    name: a\n    op: transpose\n    input: X\n" ++
    "- reorg:\n    name: b\n    op: transpose\n    input: " ++ again ++ "\n"

/-- the description that the text is read as, if `a` is turned -/
def turnedBack : Descriptor :=
  ⟨none, [.input "X" (some 1) (some 1) none, .reorg "a" .transpose "X" none, .reorg "b" .transpose "a" none]⟩

def zeroBlock : Block Float := .dense ⟨1, 1, #[Float.ofBits 0], 0⟩

/-- if the cell is turned back again, each name is an input once, and a check and a run both say three -/
theorem turned_back_counted_three : ∃ planned out s', planOf (twoTurns "a") (fun _ => none) none = .ok planned ∧
    Session.run planned.program 0 0 { bindings := ⟨[("X", zeroBlock)]⟩ } = .ok out s' ∧
    operatorCount planned.program = 3 ∧ out.manifest.operators = 3 ∧
    operatorCount planned.program = planned.program.size := by
  have hcounts : countsOf (twoTurns "a") "X" zeroBlock = some (3, 3) := by decide +kernel
  obtain ⟨planned, out, s', hplan, hrun, hchecked, hevaluated⟩ := of_countsOf hcounts
  have hparse : Descriptor.parse? (twoTurns "a") = some turnedBack := by decide +kernel
  obtain ⟨g, hbuild⟩ : ∃ g, turnedBack.build (PlannerConfig.ofEnvironment fun _ => none) = .ok g := ⟨_, rfl⟩
  obtain ⟨planned', hplan', -, -, -, hagree⟩ := counts_agree hparse hbuild
  obtain rfl := Except.ok.inj (hplan.symm.trans hplan')
  exact ⟨planned, out, s', hplan, hrun, hchecked, hevaluated, hagree.2 (by decide)⟩

/-- if the cell itself is turned again it is below both roots, and a check says four, a run three -/
theorem turned_apart_counted_four : ∃ planned out s', planOf (twoTurns "X") (fun _ => none) none = .ok planned ∧
    Session.run planned.program 0 0 { bindings := ⟨[("X", zeroBlock)]⟩ } = .ok out s' ∧
    operatorCount planned.program = 4 ∧ out.manifest.operators = 3 := by
  have hcounts : countsOf (twoTurns "X") "X" zeroBlock = some (4, 3) := by decide +kernel
  exact of_countsOf hcounts

end Command

end MatrixEngine
