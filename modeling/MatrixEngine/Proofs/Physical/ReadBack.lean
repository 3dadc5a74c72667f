/-
Plans read back from their documents.

The document of a plan holds everything but numbers. Reading it gives the same tree, in which every operator has a number
of its own, also where one was shared.
- `Operator.ofJson?_toJson`: an operator whose sizes are words is read back, nested however deep.
- `Operator.unnumbered_renumber`, `Operator.numbers_renumberAll`: numbering changes nothing else, and numbers are given
  one after the other, inputs first.
- `Program.read_back`: hence a plan is read back with fresh numbers, with the text and the fingerprint of before, and every
  run of it comes to what a run of the original does. Its text is read exactly if it is nested no deeper than sixty-two
  operators, which are as many open containers as the reader allows.
-/
import MatrixEngine.Proofs.Physical.Manifests
import MatrixEngine.Proofs.Physical.Memo
import MatrixEngine.Proofs.Text.Nesting
import MatrixEngine.Proofs.Text.Records

namespace MatrixEngine

open Json

/-! ## What is read of a field -/

@[simp] theorem Reorg.ofName?_name (op : Reorg) : Reorg.ofName? op.name = some op := by cases op <;> rfl

@[simp] theorem Aggregation.ofName?_name (op : Aggregation) : Aggregation.ofName? op.name = some op := by
  cases op <;> rfl

@[simp] theorem Direction.ofName?_name (d : Direction) : Direction.ofName? d.name = some d := by cases d <;> rfl

@[simp] theorem Correction.ofName?_name (c : Correction) : Correction.ofName? c.name = some c := by cases c <;> rfl

@[simp] theorem Placement.ofName?_name (p : Placement) : Placement.ofName? p.name = some p := by cases p <;> rfl

structure SizeInfo.Fits (s : SizeInfo) : Prop where
  rows : ∀ n ∈ s.rows, n ≤ Numeral.maxWord64
  cols : ∀ n ∈ s.cols, n ≤ Numeral.maxWord64
  rowsInBlock : s.rowsInBlock ≤ Numeral.maxWord32
  colsInBlock : s.colsInBlock ≤ Numeral.maxWord32
  nnz : ∀ n ∈ s.nnz, n ≤ Numeral.maxWord64

structure Position.Fits (p : Position) : Prop where
  beginLine : p.beginLine ≤ Numeral.maxWord32
  beginColumn : p.beginColumn ≤ Numeral.maxWord32
  endLine : p.endLine ≤ Numeral.maxWord32
  endColumn : p.endColumn ≤ Numeral.maxWord32

theorem SizeInfo.ofJson?_toJson {s : SizeInfo} (h : s.Fits) : SizeInfo.ofJson? s.toJson = some s := by
  have hfields : fields? fieldNames s.toJson =
      some [some (nat? s.rows), some (nat? s.cols), some (nat s.rowsInBlock), some (nat s.colsInBlock), some (nat? s.nnz)] :=
    fields?_own (show SizeInfo.fieldNames.Nodup by decide)
  rw [ofJson?, hfields]
  simp only [Option.bind_eq_bind, Option.bind_some, maybe?, required?, optional?_nat? h.rows, optional?_nat? h.cols,
    optional?_nat? h.nnz, word32?_nat h.rowsInBlock, word32?_nat h.colsInBlock]
  rfl

theorem Position.ofJson?_toJson {p : Position} (h : p.Fits) : Position.ofJson? p.toJson = some p := by
  have hfields : fields? fieldNames p.toJson =
      some [some (nat p.beginLine), some (nat p.beginColumn), some (nat p.endLine), some (nat p.endColumn)] :=
    fields?_own (show Position.fieldNames.Nodup by decide)
  rw [ofJson?, hfields]
  simp only [Option.bind_eq_bind, Option.bind_some, List.mapM_cons, List.mapM_nil, required?, word32?_nat h.beginLine,
    word32?_nat h.beginColumn, word32?_nat h.endLine, word32?_nat h.endColumn]
  rfl

theorem OperatorKind.ofJson?_toJson (k : OperatorKind) : OperatorKind.ofJson? k.toJson = some k := by
  cases k <;> simp [toJson, ofJson?, ofContent?, field?, occurrences, fields?, required?, string?, choice?, variant?]

namespace Operator

/-- the sizes and the position of an operator are words -/
def Fits (o : Operator) : Prop := o.output.Fits ∧ o.position.Fits

theorem inputsIn?_skip {name : String} (h : name ≠ "inputs") (j : Json) (rest : List (String × Json)) :
    inputsIn? ((name, j) :: rest) = inputsIn? rest := by
  cases j <;> simp [inputsIn?, h]

def correctionJson : Option Correction → Json
  | some c => .string c.name
  | none => .null

theorem maybe?_correctionJson (c : Option Correction) :
    maybe? (OperatorKind.choice? Correction.ofName?) (some (correctionJson c)) = some c := by
  cases c with
  | none => rfl
  | some c => simp [correctionJson, maybe?, optional?, OperatorKind.choice?, variant?]

theorem ofFields?_fits {kind : OperatorKind} {placement : Placement} {output : SizeInfo} {position : Position}
    (houtput : output.Fits) (hposition : position.Fits) (correction : Option Correction) (inputs : List Operator) :
    ofFields? [some kind.toJson, some (.string placement.name), some output.toJson, some (correctionJson correction),
      some position.toJson] inputs = some ⟨0, kind, placement, output, correction, position, inputs⟩ := by
  have hplacement : OperatorKind.choice? Placement.ofName? (.string placement.name) = some placement :=
    Placement.ofName?_name placement
  simp only [ofFields?, required?, OperatorKind.ofJson?_toJson, hplacement, SizeInfo.ofJson?_toJson houtput,
    maybe?_correctionJson, Position.ofJson?_toJson hposition]
  rfl

mutual

/-- **An operator is read back**, without numbers, if its sizes and those of all operators below it are words. -/
theorem ofJson?_toJson : ∀ (o : Operator), (∀ x ∈ o.walk, x.Fits) → ofJson? o.toJson = some o.unnumbered
  | ⟨number, kind, placement, output, correction, position, inputs⟩, h => by
    obtain ⟨houtput, hposition⟩ := h ⟨number, kind, placement, output, correction, position, inputs⟩ (by simp [walk])
    have hinputs := ofJsonAll?_toJsonAll inputs fun x hx => h x (by simp [walk, hx])
    set members : List (String × Json) := [("kind", kind.toJson), ("exec_type", .string placement.name),
      ("output", output.toJson), ("correction", correctionJson correction), ("position", position.toJson),
      ("inputs", .array (toJsonAll inputs))] with hmembers
    have hdoc : toJson ⟨number, kind, placement, output, correction, position, inputs⟩ = .object members := by
      cases correction <;> rfl
    have hfields : fieldNames.mapM (field? members) = some [some kind.toJson, some (.string placement.name),
        some output.toJson, some (correctionJson correction), some position.toJson] := by
      have hnodup : (members.map Prod.fst).Nodup := show (fieldNames ++ ["inputs"]).Nodup by decide
      have hpart : ∀ m ∈ members.take 5, m ∈ members := fun m hm => List.mem_of_mem_take hm
      exact mapM_field? hnodup hpart
    have hbelow : inputsIn? members = some [unnumberedAll inputs] := by
      rw [hmembers, inputsIn?_skip (by decide), inputsIn?_skip (by decide), inputsIn?_skip (by decide),
        inputsIn?_skip (by decide), inputsIn?_skip (by decide), inputsIn?, hinputs]
      rfl
    rw [hdoc, ofJson?, hfields, hbelow, unnumbered]
    exact ofFields?_fits houtput hposition correction (unnumberedAll inputs)

theorem ofJsonAll?_toJsonAll : ∀ (os : List Operator), (∀ x ∈ walkAll os, x.Fits) →
    ofJsonAll? (toJsonAll os) = some (unnumberedAll os)
  | [], _ => rfl
  | o :: rest, h => by
    have hfirst := ofJson?_toJson o fun x hx => h x (by simp [walkAll, hx])
    have hrest := ofJsonAll?_toJsonAll rest fun x hx => h x (by simp [walkAll, hx])
    rw [toJsonAll, ofJsonAll?, hfirst, hrest]
    rfl

end

/-! ## Numbers given anew -/

mutual

theorem unnumbered_renumber : ∀ (o : Operator) (next : Nat), (renumber next o).1.unnumbered = o.unnumbered
  | ⟨_, _, _, _, _, _, inputs⟩, next => by
    rw [renumber, unnumbered, unnumbered]
    simp only [unnumberedAll_renumberAll inputs next]

theorem unnumberedAll_renumberAll : ∀ (os : List Operator) (next : Nat),
    unnumberedAll (renumberAll next os).1 = unnumberedAll os
  | [], _ => rfl
  | o :: rest, next => by
    rw [renumberAll, unnumberedAll, unnumberedAll]
    simp only [unnumbered_renumber o next, unnumberedAll_renumberAll rest (renumber next o).2]

end

mutual

/-- the numbers of before do not enter into new ones -/
theorem renumber_unnumbered : ∀ (o : Operator) (next : Nat), renumber next o.unnumbered = renumber next o
  | ⟨_, _, _, _, _, _, inputs⟩, next => by
    rw [unnumbered, renumber, renumber, renumberAll_unnumberedAll inputs next]

theorem renumberAll_unnumberedAll : ∀ (os : List Operator) (next : Nat),
    renumberAll next (unnumberedAll os) = renumberAll next os
  | [], _ => rfl
  | o :: rest, next => by
    rw [unnumberedAll, renumberAll, renumberAll, renumber_unnumbered o next]
    simp only [renumberAll_unnumberedAll rest]

end

mutual

/-- numbers are given one after the other, inputs first -/
theorem numbers_renumber : ∀ (o : Operator) (next : Nat),
    (renumber next o).1.walk.map (·.number) = List.range' next o.walk.length ∧
      (renumber next o).2 = next + o.walk.length
  | ⟨_, _, _, _, _, _, inputs⟩, next => by
    obtain ⟨hnumbers, hnext⟩ := numbers_renumberAll inputs next
    refine ⟨?_, ?_⟩
    · simp only [renumber, walk, List.map_append, List.map_cons, List.map_nil, List.length_append, List.length_singleton,
        hnumbers, hnext, List.range'_concat, Nat.one_mul]
    · simp only [renumber, walk, List.length_append, List.length_singleton, hnext, Nat.add_assoc]

theorem numbers_renumberAll : ∀ (os : List Operator) (next : Nat),
    (walkAll (renumberAll next os).1).map (·.number) = List.range' next (walkAll os).length ∧
      (renumberAll next os).2 = next + (walkAll os).length
  | [], _ => ⟨rfl, rfl⟩
  | o :: rest, next => by
    obtain ⟨hfirst, hnext⟩ := numbers_renumber o next
    obtain ⟨hrest, hlast⟩ := numbers_renumberAll rest (renumber next o).2
    rw [hnext] at hrest hlast
    refine ⟨?_, ?_⟩
    · simp only [renumberAll, walkAll, List.map_append, List.length_append, hfirst, hnext, hrest, List.range'_append_1]
    · simp only [renumberAll, walkAll, List.length_append, hnext, hlast, Nat.add_assoc]

end

/-- operators with numbers given one after the other are told apart by them -/
theorem numbersTell_renumberAll (os : List Operator) (next : Nat) : NumbersTell (renumberAll next os).1 := by
  have hnodup : ((walkAll (renumberAll next os).1).map (·.number)).Nodup := by
    rw [(numbers_renumberAll os next).1]
    exact List.nodup_range'
  exact fun a ha b hb hab => List.inj_on_of_nodup_map hnodup ha hb hab

/-! ## Nesting -/

mutual

/-- how many operators are below one another, this one included -/
def height : Operator → Nat
  | ⟨_, _, _, _, _, _, inputs⟩ => heightAll inputs + 1

def heightAll : List Operator → Nat
  | [] => 0
  | o :: rest => max (height o) (heightAll rest)

end

mutual

/-- every operator takes up two containers: its own, and that of its inputs or of another field -/
theorem depth_toJson : ∀ o : Operator, o.toJson.depth = 2 * o.height
  | ⟨_, kind, placement, output, correction, position, inputs⟩ => by
    have hinputs := depthAll_toJsonAll inputs
    have hkind : kind.toJson.depth = 1 := by cases kind <;> rfl
    have houtput : output.toJson.depth = 1 := by
      obtain ⟨rows, cols, _, _, nnz⟩ := output
      cases rows <;> cases cols <;> cases nnz <;> rfl
    have hposition : position.toJson.depth = 1 := rfl
    cases correction <;>
      simp only [toJson, depth, depthMembers, height, hkind, houtput, hposition, hinputs] <;> omega

theorem depthAll_toJsonAll : ∀ os : List Operator, depthAll (toJsonAll os) = 2 * heightAll os
  | [] => rfl
  | o :: rest => by
    rw [toJsonAll, depthAll, heightAll, depth_toJson o, depthAll_toJsonAll rest]
    omega

end

end Operator

/-! ## Runs -/

namespace Session

variable {α : Type} [Cell α]

mutual

theorem plain_unnumbered (bound : String → Option (Block α)) : ∀ o : Operator, plain bound o.unnumbered = plain bound o
  | ⟨_, _, _, _, _, _, inputs⟩ => by rw [Operator.unnumbered, plain, plain, plainAll_unnumberedAll bound inputs]

theorem plainAll_unnumberedAll (bound : String → Option (Block α)) : ∀ os : List Operator,
    plainAll bound (Operator.unnumberedAll os) = plainAll bound os
  | [] => rfl
  | o :: rest => by
    rw [Operator.unnumberedAll, plainAll, plainAll, plain_unnumbered bound o, plainAll_unnumberedAll bound rest]

end

theorem plainMatrix_unnumbered (bound : String → Option (Block α)) (o : Operator) :
    plainMatrix bound o.unnumbered = plainMatrix bound o := by
  have hkind : o.unnumbered.kind = o.kind := by
    cases o
    rfl
  rw [plainMatrix, plainMatrix, plain_unnumbered, hkind]

/-- what a run comes to: its results, or why it fails -/
def delivered (r : EStateM.Result EvalError (Session α) (RunOutput α)) : Except EvalError (List (Dense α)) :=
  (outcome r).map RunOutput.results

theorem delivered_run [CellText α] {p : Program} (h : Operator.NumbersTell p.roots) (started finished : Nat)
    (s : Session α) : delivered (run p started finished s) = p.roots.mapM (plainMatrix s.bindings.get?) := by
  obtain ⟨s', hroots, -⟩ := evalRoots_plain h s
  rw [run_eq, hroots]
  cases p.roots.mapM (plainMatrix s.bindings.get?) <;> rfl

/-- plans that are the same but for numbers come to the same -/
theorem delivered_of_unnumbered [CellText α] {p q : Program} (hp : Operator.NumbersTell p.roots)
    (hq : Operator.NumbersTell q.roots) (h : q.roots.map Operator.unnumbered = p.roots.map Operator.unnumbered)
    (started finished : Nat) (s : Session α) :
    delivered (run q started finished s) = delivered (run p started finished s) := by
  have hroots : ∀ p : Program, p.roots.mapM (plainMatrix s.bindings.get?) =
      (p.roots.map Operator.unnumbered).mapM (plainMatrix s.bindings.get?) := by
    intro p
    rw [List.mapM_map]
    exact Sequence.mapM_congr fun o _ => (plainMatrix_unnumbered _ o).symm
  rw [delivered_run hq, delivered_run hp, hroots q, hroots p, h]

end Session

namespace Program

/-- all sizes and positions of a plan are words -/
def Fits (p : Program) : Prop := ∀ o ∈ Operator.walkAll p.roots, o.Fits

/-- how many operators are below one another -/
def height (p : Program) : Nat := Operator.heightAll p.roots

theorem depth_toJson (p : Program) : p.toJson.depth = 2 * p.height + 2 := by
  simp only [toJson, depth, depthMembers, Operator.depthAll_toJsonAll, height]
  omega

theorem readable_toJson (p : Program) : p.toJson.Readable := by
  have hroots : (array (Operator.toJsonAll p.roots)).Readable := readable_array.2 (Operator.readable_toJsonAll p.roots)
  simpa [toJson, readable_object] using hroots

theorem plain_toJson (p : Program) : p.toJson.plain = p.toJson := by
  simp [toJson, plain_object, plain, Operator.plainAll_toJsonAll]

/-- the same plan with a number of its own, from `next` on, for each use of an operator -/
def renumbered (next : Nat) (p : Program) : Program := ⟨(Operator.renumberAll next p.roots).1⟩

theorem unnumbered_renumbered (p : Program) (next : Nat) :
    (p.renumbered next).roots.map Operator.unnumbered = p.roots.map Operator.unnumbered := by
  rw [← Operator.unnumberedAll_eq_map, ← Operator.unnumberedAll_eq_map]
  exact Operator.unnumberedAll_renumberAll p.roots next

/-- a plan in a document is read back, nested however deep -/
theorem ofJson?_toJson {p : Program} (h : p.Fits) (next : Nat) : ofJson? next p.toJson = some (p.renumbered next) := by
  have hroots : rootsOf? p.toJson = some (Operator.unnumberedAll p.roots) := by
    have hfields : fields? ["roots"] p.toJson = some [some (array (Operator.toJsonAll p.roots))] :=
      fields?_own (show ["roots"].Nodup by decide)
    rw [rootsOf?, hfields]
    exact Operator.ofJsonAll?_toJsonAll p.roots h
  rw [ofJson?, hroots, Option.map_some, Operator.renumberAll_unnumberedAll]
  rfl

/-- a written plan is read back exactly if its document is nested no deeper than the reader allows -/
theorem parse?_text {p : Program} (h : p.Fits) (next : Nat) :
    parse? next p.text = if p.height ≤ 62 then some (p.renumbered next) else none := by
  have hdepth : p.toJson.depth ≤ maxDepth ↔ p.height ≤ 62 := by
    rw [depth_toJson, maxDepth]
    omega
  rw [parse?, text, parse?_compact_eq p.readable_toJson, plain_toJson, if_congr hdepth rfl rfl]
  split_ifs
  · exact ofJson?_toJson h next
  · rfl

/-- **Plans are read back.** The document of a plan whose sizes and positions are words reads as the same plan, nested
however deep, but for numbers: each use of an operator has one of its own, from `next` on. The text of the document reads
so exactly if no more than sixty-two operators are below one another; then all containers of the document can be opened.
The plan that is read has the text and the fingerprint of the first, and a run of it comes to the same results, or fails
in the same way, from any session. -/
theorem read_back {α : Type} [Cell α] [CellText α] {p : Program} (h : p.Fits) (next : Nat) : ∃ q : Program,
    ofJson? next p.toJson = some q ∧ parse? next p.text = (if p.height ≤ 62 then some q else none) ∧
    q.roots.map Operator.unnumbered = p.roots.map Operator.unnumbered ∧
    (Operator.walkAll q.roots).map (·.number) = List.range' next (Operator.walkAll p.roots).length ∧
    q.text = p.text ∧ q.fingerprint = p.fingerprint ∧
    (Operator.NumbersTell p.roots → ∀ (s : Session α) (started finished : Nat),
      Session.delivered (Session.run q started finished s) = Session.delivered (Session.run p started finished s)) := by
  have hsame := p.unnumbered_renumbered next
  have hdocuments : Operator.toJsonAll (p.renumbered next).roots = Operator.toJsonAll p.roots := by
    rw [Operator.toJsonAll_eq_iff, Operator.unnumberedAll_eq_map, Operator.unnumberedAll_eq_map, hsame]
  refine ⟨p.renumbered next, ofJson?_toJson h next, parse?_text h next, hsame,
    (Operator.numbers_renumberAll p.roots next).1, ?_, ?_, fun hp s started finished => ?_⟩
  · rw [text, text, toJson, toJson, hdocuments]
  · rw [fingerprint, fingerprint, hdocuments]
  · exact Session.delivered_of_unnumbered hp (Operator.numbersTell_renumberAll p.roots next) hsame started finished s

def bothWays : Program :=
  let a := Operator.data 0 "A" (.unknown 1000) {}
  ⟨[a, .transform 1 a .transpose .local (.unknown 1000) {}]⟩

theorem fits_unknown : (SizeInfo.unknown 1000).Fits := by
  refine ⟨?_, ?_, by decide, by decide, ?_⟩ <;> rintro _ ⟨⟩

theorem fits_start : ({} : Position).Fits := by
  refine ⟨?_, ?_, ?_, ?_⟩ <;> exact Nat.zero_le _

theorem fits_bothWays : bothWays.Fits := by
  intro o ho
  have hsize : o.output = .unknown 1000 ∧ o.position = {} := by
    simp only [bothWays, Operator.walkAll, Operator.data, Operator.transform, Operator.walk, List.nil_append,
      List.append_nil, List.cons_append, List.mem_cons, List.not_mem_nil, or_false] at ho
    rcases ho with rfl | rfl | rfl <;> exact ⟨rfl, rfl⟩
  rw [Operator.Fits, hsize.1, hsize.2]
  exact ⟨fits_unknown, fits_start⟩

/-- the block has a number for each of its two uses in the plan that is read, and both plans deliver it both ways, although
the session holds another value for one of their numbers -/
theorem both_uses_are_numbered : ∃ q : Program, parse? 1 bothWays.text = some q ∧
    (Operator.walkAll q.roots).map (·.number) = [1, 2, 3] ∧ q.fingerprint = bothWays.fingerprint ∧
    Session.delivered (Session.run q 0 0 Session.usedSession) = .ok [⟨1, 2, #[5, 7], 2⟩, ⟨2, 1, #[5, 7], 2⟩] := by
  have htell : Operator.NumbersTell bothWays.roots := by
    intro a ha b hb hab
    simp only [bothWays, Operator.walkAll, Operator.transform, Operator.data, Operator.walk, List.nil_append,
      List.append_nil, List.cons_append, List.mem_cons, List.not_mem_nil, or_false] at ha hb
    rcases ha with rfl | rfl | rfl <;> rcases hb with rfl | rfl | rfl <;> first | rfl | cases hab
  obtain ⟨q, -, hread, -, hnumbers, -, hfingerprint, hruns⟩ := read_back (α := Int) fits_bothWays 1
  refine ⟨q, hread, hnumbers, hfingerprint, ?_⟩
  rw [hruns htell, Session.delivered_run htell]
  rfl

def turned : Nat → Operator
  | 0 => .data 0 "A" (.unknown 1000) {}
  | n + 1 => .transform (n + 1) (turned n) .transpose .local (.unknown 1000) {}

theorem height_turned (n : Nat) : (turned n).height = n + 1 := by
  induction n with
  | zero => rfl
  | succ n ih =>
    simp only [turned, Operator.transform, Operator.height, Operator.heightAll, ih]
    omega

theorem fits_turned (n : Nat) : ∀ o ∈ (turned n).walk, o.Fits := by
  induction n with
  | zero =>
    simp only [turned, Operator.data, Operator.walk, Operator.walkAll, List.nil_append, List.mem_singleton]
    rintro o rfl
    exact ⟨fits_unknown, fits_start⟩
  | succ n ih =>
    intro o ho
    simp only [turned, Operator.transform, Operator.walk, Operator.walkAll, List.append_nil, List.mem_append,
      List.mem_singleton] at ho
    rcases ho with ho | rfl
    · exact ih o ho
    · exact ⟨fits_unknown, fits_start⟩

/-- a block turned around sixty-two times makes a plan that is written, but not read back -/
theorem sixty_three_operators_are_refused :
    (⟨[turned 62]⟩ : Program).Fits ∧ parse? 0 (⟨[turned 62]⟩ : Program).text = none := by
  have hfits : (⟨[turned 62]⟩ : Program).Fits := by
    intro o ho
    simp only [Operator.walkAll, List.append_nil] at ho
    exact fits_turned 62 o ho
  have hheight : (⟨[turned 62]⟩ : Program).height = 63 := by
    rw [height, Operator.heightAll, height_turned]
    rfl
  refine ⟨hfits, ?_⟩
  rw [parse?_text hfits, hheight]
  rfl

end Program

end MatrixEngine
