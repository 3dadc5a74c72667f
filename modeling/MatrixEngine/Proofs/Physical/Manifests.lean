/-
What equal reports tell.

A report holds digests of three texts: the plan, the bound blocks and the results. Two texts are compared by their
digests only, so that what follows holds of texts that their digests tell apart (`Digest.Tells`).
- `Program.rootsText_eq_iff`: plans have one text exactly if they are the same but for the numbers of operators; a
  shared operator is written once per use, so how operators are shared is not told.
- `Bindings.text_eq_iff`, `Session.resultsText_eq_iff`: blocks have one text up to infinities and NaN.
- `Session.sameResults_tells`: hence what two runs with equal reports have in common, and that without infinite cells
  it is everything. `opposite_infinities_reported_same` are two runs with equal reports that come to opposite
  infinities.
-/
import MatrixEngine.Proofs.Block.Documents
import MatrixEngine.Proofs.Physical.Recursion
import MatrixEngine.Proofs.Plan.Queries

namespace MatrixEngine

open Json

/-! ## Texts of plans -/

theorem Reorg.name_injective : Function.Injective Reorg.name := by
  intro a b h
  cases a <;> cases b <;> first | rfl | exact absurd h (by decide)

theorem Aggregation.name_injective : Function.Injective Aggregation.name := by
  intro a b h
  cases a <;> cases b <;> first | rfl | exact absurd h (by decide)

theorem Direction.name_injective : Function.Injective Direction.name := by
  intro a b h
  cases a <;> cases b <;> first | rfl | exact absurd h (by decide)

theorem Correction.name_injective : Function.Injective Correction.name := by
  intro a b h
  cases a <;> cases b <;> first | rfl | exact absurd h (by decide)

theorem Placement.name_injective : Function.Injective Placement.name := by
  intro a b h
  cases a <;> cases b <;> first | rfl | exact absurd h (by decide)

theorem OperatorKind.toJson_injective : Function.Injective OperatorKind.toJson := by
  intro k l h
  cases k <;> cases l
  case data.data => simpa [toJson] using h
  case transform.transform => simpa [toJson, Reorg.name_injective.eq_iff] using h
  case partialAggregate.partialAggregate =>
    simpa [toJson, Aggregation.name_injective.eq_iff, Direction.name_injective.eq_iff] using h
  case group.group => rfl
  case aggregate.aggregate => simpa [toJson, Aggregation.name_injective.eq_iff] using h
  -- two kinds have two names
  all_goals simp [toJson] at h

theorem SizeInfo.toJson_injective : Function.Injective SizeInfo.toJson := by
  rintro ⟨rows, cols, rowsInBlock, colsInBlock, nnz⟩ ⟨rows', cols', rowsInBlock', colsInBlock', nnz'⟩ h
  simpa only [toJson, object.injEq, List.cons.injEq, Prod.mk.injEq, true_and, and_true, nat_inj, nat?_inj,
    SizeInfo.mk.injEq] using h

theorem Position.toJson_injective : Function.Injective Position.toJson := by
  rintro ⟨beginLine, beginColumn, endLine, endColumn⟩ ⟨beginLine', beginColumn', endLine', endColumn'⟩ h
  simpa only [toJson, object.injEq, List.cons.injEq, Prod.mk.injEq, true_and, and_true, nat_inj, Position.mk.injEq]
    using h

namespace Operator

mutual

/-- **Documents of operators are the same** exactly if the operators are, but for their numbers. -/
theorem toJson_eq_iff : ∀ o o' : Operator, o.toJson = o'.toJson ↔ o.unnumbered = o'.unnumbered
  | ⟨_, kind, placement, output, correction, position, inputs⟩,
    ⟨_, kind', placement', output', correction', position', inputs'⟩ => by
    have hinputs := toJsonAll_eq_iff inputs inputs'
    cases correction <;> cases correction' <;>
      simp [toJson, unnumbered, OperatorKind.toJson_injective.eq_iff, Placement.name_injective.eq_iff,
        SizeInfo.toJson_injective.eq_iff, Correction.name_injective.eq_iff, Position.toJson_injective.eq_iff, hinputs]

theorem toJsonAll_eq_iff : ∀ os os' : List Operator, toJsonAll os = toJsonAll os' ↔ unnumberedAll os = unnumberedAll os'
  | [], [] => by simp [toJsonAll, unnumberedAll]
  | [], _ :: _ => by simp [toJsonAll, unnumberedAll]
  | _ :: _, [] => by simp [toJsonAll, unnumberedAll]
  | o :: rest, o' :: rest' => by
    simp only [toJsonAll, unnumberedAll, List.cons.injEq, toJson_eq_iff o o', toJsonAll_eq_iff rest rest']

end

mutual

/-- documents of operators hold integers only -/
theorem plain_toJson : ∀ o : Operator, o.toJson.plain = o.toJson
  | ⟨_, kind, placement, output, correction, position, inputs⟩ => by
    have hkind : kind.toJson.plain = kind.toJson := by
      cases kind <;> simp [OperatorKind.toJson, plain_object]
    have hinputs : (array (toJsonAll inputs)).plain = array (toJsonAll inputs) := by
      rw [plain, plainAll_toJsonAll inputs]
    cases correction <;> simp [toJson, plain_object, hkind, hinputs, SizeInfo.toJson, Position.toJson]

theorem plainAll_toJsonAll : ∀ os : List Operator, plainAll (toJsonAll os) = toJsonAll os
  | [] => rfl
  | o :: rest => by rw [toJsonAll, plainAll, plain_toJson o, plainAll_toJsonAll rest]

end

mutual

theorem readable_toJson : ∀ o : Operator, o.toJson.Readable
  | ⟨_, kind, placement, output, correction, position, inputs⟩ => by
    have hkind : kind.toJson.Readable := by
      cases kind <;> simp [OperatorKind.toJson, readable_object]
    have hinputs : (array (toJsonAll inputs)).Readable := readable_array.2 (readable_toJsonAll inputs)
    cases correction <;> simp [toJson, readable_object, hkind, hinputs, SizeInfo.toJson, Position.toJson]

theorem readable_toJsonAll : ∀ os : List Operator, ∀ j ∈ toJsonAll os, j.Readable
  | [], _, hj => by simp [toJsonAll] at hj
  | o :: rest, j, hj => by
    rw [toJsonAll] at hj
    rcases List.mem_cons.1 hj with rfl | hj
    · exact readable_toJson o
    · exact readable_toJsonAll rest j hj

end

end Operator

/-- the text under the digest of a plan -/
def Program.rootsText (p : Program) : String := (array (Operator.toJsonAll p.roots)).compact

/-- **Plans have one text** exactly if they are the same but for the numbers of operators. -/
theorem Program.rootsText_eq_iff {p p' : Program} :
    p.rootsText = p'.rootsText ↔ p.roots.map Operator.unnumbered = p'.roots.map Operator.unnumbered := by
  have hreadable : ∀ p : Program, (array (Operator.toJsonAll p.roots)).Readable :=
    fun p => readable_array.2 (Operator.readable_toJsonAll p.roots)
  rw [rootsText, rootsText, compact_eq_iff (hreadable p) (hreadable p'), plain, plain, Operator.plainAll_toJsonAll,
    Operator.plainAll_toJsonAll, array.injEq, Operator.toJsonAll_eq_iff, Operator.unnumberedAll_eq_map,
    Operator.unnumberedAll_eq_map]

/-! ## Texts of blocks -/

section Blocks

variable {α : Type} [CellText α]

/-- the same names, bound to blocks that are alike -/
def Bindings.Alike (r : α → α → Prop) (bs bs' : Bindings α) : Prop :=
  List.Forall₂ (fun x y => x.1 = y.1 ∧ x.2.Alike r y.2) bs.entries bs'.entries

/-- the dictionaries of all bound blocks are cut into tuples -/
def Bindings.Cut (bs : Bindings α) : Prop := ∀ e ∈ bs.entries, e.2.Cut

omit [CellText α] in
theorem Bindings.alike_eq_iff {bs bs' : Bindings α} (h : bs.Cut) (h' : bs'.Cut) : bs.Alike Eq bs' ↔ bs = bs' := by
  constructor
  · intro halike
    have hentries := forall₂_imp_mem halike (S := Eq) fun e he e' he' hee' =>
      Prod.ext hee'.1 ((Block.alike_eq_iff (h e he) (h' e' he')).1 hee'.2)
    rw [List.forall₂_eq_eq_eq] at hentries
    obtain ⟨entries⟩ := bs
    exact congrArg Bindings.mk hentries
  · rintro rfl
    exact List.forall₂_same.2 fun e he => ⟨rfl, (Block.alike_eq_iff (h e he) (h e he)).2 rfl⟩

def Bindings.text (bs : Bindings α) : String := (object (bs.entries.map fun (n, b) => (n, b.toJson))).compact

def Session.resultsText (ds : List (Dense α)) : String := (array (ds.map Dense.toJson)).compact

variable [ReadableCells α]

/-- **Bound blocks have one text** exactly if they are alike, up to cells of one text. -/
theorem Bindings.text_eq_iff {bs bs' : Bindings α} : bs.text = bs'.text ↔ bs.Alike SameText bs' := by
  have hreadable : ∀ bs : Bindings α, (object (bs.entries.map fun (n, b) => (n, b.toJson))).Readable := by
    intro bs
    rw [readable_object, List.forall_mem_map]
    exact fun e _ => e.2.readable_toJson
  rw [text, text, compact_eq_iff (hreadable bs) (hreadable bs'), plain_object, plain_object, object.injEq, List.map_map,
    List.map_map, ← List.forall₂_eq_eq_eq, List.forall₂_map_left_iff, List.forall₂_map_right_iff]
  simp only [Function.comp, Prod.mk.injEq, Block.plain_toJson_eq_iff, Alike]

theorem Session.resultsText_eq_iff {ds ds' : List (Dense α)} :
    resultsText ds = resultsText ds' ↔ List.Forall₂ (Dense.Alike SameText) ds ds' := by
  have hreadable : ∀ ds : List (Dense α), (array (ds.map Dense.toJson)).Readable := by
    intro ds
    rw [readable_array, List.forall_mem_map]
    exact fun d _ => d.readable_toJson
  rw [resultsText, resultsText, compact_eq_iff (hreadable ds) (hreadable ds'), plain_array_eq_iff]
  simp only [Dense.plain_toJson_eq_iff]

end Blocks

/-! ## Reports of runs -/

/-- the digests of two texts tell them apart -/
def Digest.Tells (t t' : String) : Prop := ofText t = ofText t' → t = t'

namespace Session

variable {p p' : Program} {a b a' b' : Nat} {s s' t t' : Session Float} {out out' : RunOutput Float}

theorem run_digests (h : run p a b s = .ok out t) : out.manifest.plan = Digest.ofText p.rootsText ∧
    out.manifest.inputs = some (Digest.ofText s.bindings.text) ∧
    out.manifest.outputs = some (Digest.ofText (resultsText out.results)) := by
  rw [run_eq] at h
  cases hroots : evalRoots p s with
  | error e s' => simp [hroots] at h
  | ok ds s' =>
    rw [hroots] at h
    obtain ⟨rfl, -⟩ := EStateM.Result.ok.inj h
    exact ⟨rfl, rfl, rfl⟩

theorem sameResults_iff_digests (m m' : Manifest) :
    m.sameResults m' = true ↔ m.plan = m'.plan ∧ m.inputs = m'.inputs ∧ m.outputs = m'.outputs := by
  have hbytes : ∀ {d d' : Digest}, d.bytes = d'.bytes ↔ d = d' := by
    rintro ⟨bytes⟩ ⟨bytes'⟩
    simp
  have hmap : ∀ {d d' : Option Digest}, d.map (·.bytes) = d'.map (·.bytes) ↔ d = d' :=
    fun {d d'} => (Option.map_injective fun _ _ h => hbytes.1 h).eq_iff
  simp only [Manifest.sameResults, Bool.and_eq_true, beq_iff_eq, hbytes, hmap, and_assoc]

/-- two runs are reported as the same if their texts are, and only then if the digests tell the texts apart -/
theorem sameResults_iff_texts (hrun : run p a b s = .ok out t) (hrun' : run p' a' b' s' = .ok out' t')
    (hplan : Digest.Tells p.rootsText p'.rootsText) (hinputs : Digest.Tells s.bindings.text s'.bindings.text)
    (hresults : Digest.Tells (resultsText out.results) (resultsText out'.results)) :
    out.manifest.sameResults out'.manifest = true ↔ p.rootsText = p'.rootsText ∧
      s.bindings.text = s'.bindings.text ∧ resultsText out.results = resultsText out'.results := by
  obtain ⟨hp, hi, ho⟩ := run_digests hrun
  obtain ⟨hp', hi', ho'⟩ := run_digests hrun'
  rw [sameResults_iff_digests, hp, hp', hi, hi', ho, ho', Option.some.injEq, Option.some.injEq]
  exact ⟨fun ⟨hp, hi, ho⟩ => ⟨hplan hp, hinputs hi, hresults ho⟩, fun ⟨hp, hi, ho⟩ => by rw [hp, hi, ho]; simp⟩

/-- no stored cell of the bound blocks and no cell of the results is infinite -/
structure NoInfinity (bs : Bindings Float) (ds : List (Dense Float)) : Prop where
  bound : ∀ e ∈ bs.entries, ∀ v ∈ e.2.held, v.isInf = false
  results : ∀ d ∈ ds, ∀ v ∈ d.values.toList, v.isInf = false

/-- without infinities, what is alike up to merged cells has the same cells -/
theorem NoInfinity.eq_of_merged (h : NoInfinity s.bindings out.results) (h' : NoInfinity s'.bindings out'.results) :
    (s.bindings.Alike Merged s'.bindings ↔ s.bindings.Alike Eq s'.bindings) ∧
      (List.Forall₂ (Dense.Alike Merged) out.results out'.results ↔ out.results = out'.results) := by
  refine ⟨⟨fun halike => ?_, fun halike => ?_⟩, fun halike => ?_, fun heq => ?_⟩
  · refine forall₂_imp_mem halike fun e he e' he' hee' => ⟨hee'.1, hee'.2.imp fun v hv w hw hvw => ?_⟩
    exact hvw.eq (h.bound e he v hv) (h'.bound e' he' w hw)
  · exact List.Forall₂.imp (fun e e' hee' => ⟨hee'.1, hee'.2.imp fun _ _ _ _ => .inl⟩) halike
  · rw [← List.forall₂_eq_eq_eq]
    refine forall₂_imp_mem halike fun d hd d' hd' hdd' => Dense.alike_eq_iff.1 (hdd'.imp fun v hv w hw hvw => ?_)
    exact hvw.eq (h.results d hd v hv) (h'.results d' hd' w hw)
  · rw [heq]
    exact List.forall₂_same.2 fun d _ => (Dense.alike_eq_iff.2 rfl).imp fun _ _ _ _ => .inl

/-- **Equal reports tell results apart, but for infinities and NaN.** Of two successful runs, of any plans over any
bound blocks in sessions of any past, the reports are the same exactly if the plans are the same but for the numbers of
operators, the bound blocks have the same names, representations, shapes, layouts and cells, and so have the results,
where cells count as the same that are both infinite or NaN. Without infinite cells this is: the same plan, the same
inputs, the same results. Bound blocks with the same cells are the same blocks, once their dictionaries are cut into
tuples as coding cuts them. -/
theorem sameResults_tells (hrun : run p a b s = .ok out t) (hrun' : run p' a' b' s' = .ok out' t')
    (hplan : Digest.Tells p.rootsText p'.rootsText) (hinputs : Digest.Tells s.bindings.text s'.bindings.text)
    (hresults : Digest.Tells (resultsText out.results) (resultsText out'.results)) :
    (out.manifest.sameResults out'.manifest = true ↔
      p.roots.map Operator.unnumbered = p'.roots.map Operator.unnumbered ∧
        s.bindings.Alike Merged s'.bindings ∧ List.Forall₂ (Dense.Alike Merged) out.results out'.results) ∧
    (NoInfinity s.bindings out.results → NoInfinity s'.bindings out'.results →
      (out.manifest.sameResults out'.manifest = true ↔
        p.roots.map Operator.unnumbered = p'.roots.map Operator.unnumbered ∧
          s.bindings.Alike Eq s'.bindings ∧ out.results = out'.results)) ∧
    (s.bindings.Cut → s'.bindings.Cut → (s.bindings.Alike Eq s'.bindings ↔ s.bindings = s'.bindings)) := by
  have htexts := sameResults_iff_texts hrun hrun' hplan hinputs hresults
  rw [Program.rootsText_eq_iff, Bindings.text_eq_iff, resultsText_eq_iff, sameText_eq_merged] at htexts
  refine ⟨htexts, fun h h' => ?_, Bindings.alike_eq_iff⟩
  obtain ⟨hbound, hdelivered⟩ := h.eq_of_merged h'
  rw [htexts, hbound, hdelivered]

def delivery (number : Nat) : Program := ⟨[.data number "A" (.unknown 1000) {}]⟩

def boundCell (bits : UInt64) : Session Float := { bindings := ⟨[("A", .dense ⟨1, 1, #[Float.ofBits bits], 1⟩)]⟩ }

theorem cut_boundCell (bits : UInt64) : (boundCell bits).bindings.Cut :=
  List.forall_mem_singleton.2 trivial

theorem run_delivery (number started finished : Nat) (bits : UInt64) : ∃ out t,
    run (delivery number) started finished (boundCell bits) = .ok out t ∧
      out.results = [⟨1, 1, #[Float.ofBits bits], 1⟩] :=
  ⟨_, _, rfl, rfl⟩

/-- plans that number their one operator differently are reported as the same at different times, over one cell 1.0 -/
theorem renumbered_reported_same : ∃ out t out' t', run (delivery 0) 0 1 (boundCell 0x3FF0000000000000) = .ok out t ∧
    run (delivery 7) 5 9 (boundCell 0x3FF0000000000000) = .ok out' t' ∧
    NoInfinity (boundCell 0x3FF0000000000000).bindings out.results ∧
    out.manifest.sameResults out'.manifest = true := by
  obtain ⟨out, t, hrun, hresults⟩ := run_delivery 0 0 1 0x3FF0000000000000
  obtain ⟨out', t', hrun', hresults'⟩ := run_delivery 7 5 9 0x3FF0000000000000
  have hplan : (delivery 0).rootsText = (delivery 7).rootsText := Program.rootsText_eq_iff.2 rfl
  have hsame : out.results = out'.results := hresults.trans hresults'.symm
  have hmain := sameResults_tells hrun hrun' (fun _ => hplan) (fun _ => rfl) (fun _ => by rw [hsame])
  have hone : (Float.ofBits 0x3FF0000000000000).isInf = false := by decide
  have hfinite : NoInfinity (boundCell 0x3FF0000000000000).bindings out.results :=
    ⟨by simpa [boundCell, Block.held] using hone, by simpa [hresults] using hone⟩
  refine ⟨out, t, out', t', hrun, hrun', hfinite, (hmain.2.1 hfinite (hsame ▸ hfinite)).2 ⟨?_, ?_, hsame⟩⟩
  · rfl
  · exact (Bindings.alike_eq_iff (cut_boundCell _) (cut_boundCell _)).2 rfl

/-- two runs of one plan are reported as the same, although the first is given and delivers the positive infinity and
the second the negative one -/
theorem opposite_infinities_reported_same : ∃ out t out' t',
    run (delivery 0) 0 0 (boundCell 0x7FF0000000000000) = .ok out t ∧
    run (delivery 0) 0 0 (boundCell 0xFFF0000000000000) = .ok out' t' ∧
    out.manifest.sameResults out'.manifest = true ∧
    ¬ (boundCell 0x7FF0000000000000).bindings.Alike Eq (boundCell 0xFFF0000000000000).bindings ∧
    out.results ≠ out'.results := by
  obtain ⟨out, t, hrun, hresults⟩ := run_delivery 0 0 0 0x7FF0000000000000
  obtain ⟨out', t', hrun', hresults'⟩ := run_delivery 0 0 0 0xFFF0000000000000
  have hne : (Float.ofBits 0x7FF0000000000000) ≠ Float.ofBits 0xFFF0000000000000 := by decide
  have hmerged : Merged (Float.ofBits 0x7FF0000000000000) (Float.ofBits 0xFFF0000000000000) := .inr (by decide)
  have hdense : Dense.Alike SameText (⟨1, 1, #[Float.ofBits 0x7FF0000000000000], 1⟩ : Dense Float)
      ⟨1, 1, #[Float.ofBits 0xFFF0000000000000], 1⟩ := by
    rw [sameText_eq_merged]
    exact ⟨rfl, rfl, .cons hmerged .nil, rfl⟩
  have hinputs : (boundCell 0x7FF0000000000000).bindings.text = (boundCell 0xFFF0000000000000).bindings.text :=
    Bindings.text_eq_iff.2 (.cons ⟨rfl, .dense hdense⟩ .nil)
  have hdelivered : resultsText out.results = resultsText out'.results := by
    rw [hresults, hresults']
    exact resultsText_eq_iff.2 (.cons hdense .nil)
  refine ⟨out, t, out', t', hrun, hrun', ?_, ?_, ?_⟩
  · exact (sameResults_iff_texts hrun hrun' (fun _ => rfl) (fun _ => hinputs) fun _ => hdelivered).2
      ⟨rfl, hinputs, hdelivered⟩
  · intro halike
    have hbindings := (Bindings.alike_eq_iff (cut_boundCell _) (cut_boundCell _)).1 halike
    exact hne (by simpa [boundCell] using hbindings)
  · rw [hresults, hresults']
    simpa using hne

end Session

end MatrixEngine
