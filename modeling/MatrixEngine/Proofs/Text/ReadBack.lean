/-
Written documents are read back.

Reading takes the characters of a document off again, whatever follows, as long as nothing that follows could belong to
a number (`value?_chars`). A number that is written `null` is read as `null` (`plain`); otherwise the document is the
same. So the text of a document that is nested no deeper than the reader allows reads as the document
(`parse?_compact`), and two documents have one text exactly if they are the same up to that (`compact_eq_iff`).
-/
import MatrixEngine.Proofs.Text.Written

namespace MatrixEngine.Json

/-! ## Documents -/

mutual

/-- a document with numbers that are written `null` taken as `null` -/
def plain : Json → Json
  | number text => if text = "null" then null else number text
  | array items => array (plainAll items)
  | object members => object (plainMembers members)
  | j => j

def plainAll : List Json → List Json
  | [] => []
  | j :: rest => plain j :: plainAll rest

def plainMembers : List (String × Json) → List (String × Json)
  | [] => []
  | (k, j) :: rest => (k, plain j) :: plainMembers rest

end

mutual

/-- the texts of all numbers are read as numbers, or they are `null` -/
def Readable : Json → Prop
  | number text => text = "null" ∨ NumberText text
  | array items => ReadableAll items
  | object members => ReadableMembers members
  | _ => True

def ReadableAll : List Json → Prop
  | [] => True
  | j :: rest => Readable j ∧ ReadableAll rest

def ReadableMembers : List (String × Json) → Prop
  | [] => True
  | (_, j) :: rest => Readable j ∧ ReadableMembers rest

end

mutual

/-- how many containers are open at once -/
def depth : Json → Nat
  | array items => depthAll items + 1
  | object members => depthMembers members + 1
  | _ => 0

def depthAll : List Json → Nat
  | [] => 0
  | j :: rest => max (depth j) (depthAll rest)

def depthMembers : List (String × Json) → Nat
  | [] => 0
  | (_, j) :: rest => max (depth j) (depthMembers rest)

end

mutual

/-- a bound on the steps of reading a document -/
def steps : Json → Nat
  | array items => stepsAll items + 1
  | object members => stepsMembers members + 1
  | _ => 1

def stepsAll : List Json → Nat
  | [] => 0
  | j :: rest => steps j + stepsAll rest + 1

def stepsMembers : List (String × Json) → Nat
  | [] => 0
  | (_, j) :: rest => steps j + stepsMembers rest + 1

end

theorem plainAll_eq_map (items : List Json) : plainAll items = items.map plain := by
  induction items with
  | nil => rfl
  | cons j rest ih => rw [plainAll, ih, List.map_cons]

theorem plainMembers_eq_map (members : List (String × Json)) :
    plainMembers members = members.map fun m => (m.1, m.2.plain) := by
  induction members with
  | nil => rfl
  | cons m rest ih => rw [plainMembers, ih, List.map_cons]

theorem readableAll_iff {items : List Json} : ReadableAll items ↔ ∀ j ∈ items, j.Readable := by
  induction items with
  | nil => simp [ReadableAll]
  | cons j rest ih => simp [ReadableAll, ih]

theorem readableMembers_iff {members : List (String × Json)} :
    ReadableMembers members ↔ ∀ m ∈ members, m.2.Readable := by
  induction members with
  | nil => simp [ReadableMembers]
  | cons m rest ih => simp [ReadableMembers, ih]

@[simp] theorem plain_null : null.plain = null := rfl

@[simp] theorem plain_string (s : String) : (string s).plain = string s := rfl

@[simp] theorem readable_null : null.Readable := trivial

@[simp] theorem readable_string (s : String) : (string s).Readable := trivial

theorem plain_array (items : List Json) : (array items).plain = array (items.map plain) := by
  rw [plain, plainAll_eq_map]

theorem plain_object (members : List (String × Json)) :
    (object members).plain = object (members.map fun m => (m.1, m.2.plain)) := by
  rw [plain, plainMembers_eq_map]

theorem readable_array {items : List Json} : (array items).Readable ↔ ∀ j ∈ items, j.Readable := by
  rw [Readable, readableAll_iff]

theorem readable_object {members : List (String × Json)} :
    (object members).Readable ↔ ∀ m ∈ members, m.2.Readable := by
  rw [Readable, readableMembers_iff]

/-! Integers are read back as they are, and tell themselves apart. -/

@[simp] theorem readable_nat (n : Nat) : (nat n).Readable := .inr (numberText_nat n)

@[simp] theorem plain_nat (n : Nat) : (nat n).plain = nat n := if_neg (numberText_nat n).ne_null

@[simp] theorem nat_inj {n m : Nat} : nat n = nat m ↔ n = m := by
  refine ⟨fun h => ?_, fun h => h ▸ rfl⟩
  have hdigits : Nat.toDigits 10 n = Nat.toDigits 10 m := by
    have htext := congrArg String.toList (number.inj h)
    rwa [Nat.toString_eq_ofList_toDigits, Nat.toString_eq_ofList_toDigits, String.toList_ofList,
      String.toList_ofList] at htext
  calc n = Nat.ofDigitChars 10 (Nat.toDigits 10 n) 0 := Nat.ofDigitChars_ten_toDigits.symm
    _ = Nat.ofDigitChars 10 (Nat.toDigits 10 m) 0 := by rw [hdigits]
    _ = m := Nat.ofDigitChars_ten_toDigits

@[simp] theorem readable_nat? (n : Option Nat) : (nat? n).Readable := by
  cases n with
  | none => trivial
  | some n => exact readable_nat n

@[simp] theorem plain_nat? (n : Option Nat) : (nat? n).plain = nat? n := by
  cases n with
  | none => rfl
  | some n => exact plain_nat n

@[simp] theorem nat?_inj {n m : Option Nat} : nat? n = nat? m ↔ n = m := by
  cases n <;> cases m <;> simp only [nat?, nat_inj, Option.some.injEq, reduceCtorEq]
  · exact iff_of_false (fun h => by cases h) (by simp)
  · exact iff_of_false (fun h => by cases h) (by simp)

theorem skipBlanks_cons {c : Char} (h : isBlank c = false) (cs : List Char) : skipBlanks (c :: cs) = c :: cs := by
  rw [skipBlanks, List.dropWhile_cons_of_neg (by simp [h])]

/-- a sign or a digit is neither blank nor the beginning of anything but a number -/
theorem begins_number {c : Char} (h : c = '-' ∨ c.isDigit = true) : isBlank c = false ∧
    c ∉ ['n', 't', 'f', '"', '[', ']', '\x7b', '\x7d'] := by
  rcases h with rfl | h
  · decide
  · refine ⟨?_, fun hmem => ?_⟩
    · simp only [isBlank, Bool.or_eq_false_iff, decide_eq_false_iff_not]
      refine ⟨⟨⟨?_, ?_⟩, ?_⟩, ?_⟩ <;> rintro rfl <;> cases h
    · simp only [List.mem_cons, List.not_mem_nil, or_false] at hmem
      rcases hmem with rfl | rfl | rfl | rfl | rfl | rfl | rfl | rfl <;> cases h

/-- a document begins with a character that is not blank and closes nothing -/
theorem chars_begins {j : Json} (h : j.Readable) :
    ∃ c cs, chars j = c :: cs ∧ isBlank c = false ∧ c ≠ ']' ∧ c ≠ '\x7d' := by
  cases j with
  | null => exact ⟨_, _, rfl, by decide⟩
  | bool b => cases b <;> exact ⟨_, _, rfl, by decide⟩
  | number text =>
    rcases h with rfl | h
    · exact ⟨'n', ['u', 'l', 'l'], rfl, by decide⟩
    · obtain ⟨c, cs, hcs, hc⟩ := h.begins
      obtain ⟨hblank, hnot⟩ := begins_number hc
      refine ⟨c, cs, hcs, hblank, ?_, ?_⟩ <;> rintro rfl <;> simp at hnot
  | string s => exact ⟨_, _, rfl, by decide⟩
  | array items => exact ⟨_, _, rfl, by decide⟩
  | object members => exact ⟨_, _, rfl, by decide⟩

theorem value?_number {c : Char} {cs : List Char} (hc : c = '-' ∨ c.isDigit = true) (n d : Nat) :
    value? (n + 1) d (c :: cs) = number? (c :: cs) := by
  obtain ⟨hblank, hnot⟩ := begins_number hc
  rw [value?, skipBlanks_cons hblank]
  split <;> rename_i h
  all_goals first
    | rfl
    | exact absurd (List.cons.inj h).1 (by rintro rfl; simp at hnot)

theorem value?_string (s : String) (n d : Nat) (rest : List Char) :
    value? (n + 1) d (quotedChars s ++ rest) = some (string s, rest) := by
  obtain ⟨cs, hcs, hquoted⟩ := quoted?_quotedChars s rest
  rw [hcs, value?, skipBlanks_cons (by decide)]
  simp only [hquoted, Option.map_some]

/-- a container that is not closed at once is read item by item -/
theorem value?_array {c : Char} (hblank : isBlank c = false) (hc : c ≠ ']') (cs : List Char) (n d : Nat) :
    value? (n + 1) (d + 1) ('[' :: c :: cs) = (items? n d (c :: cs)).map fun p => (array p.1, p.2) := by
  rw [value?, skipBlanks_cons (by decide)]
  simp only [skipBlanks_cons hblank]
  split
  · rename_i h
    exact absurd (List.cons.inj h).1 hc
  · rfl

theorem value?_object {c : Char} (hblank : isBlank c = false) (hc : c ≠ '\x7d') (cs : List Char) (n d : Nat) :
    value? (n + 1) (d + 1) ('\x7b' :: c :: cs) = (members? n d (c :: cs)).map fun p => (object p.1, p.2) := by
  rw [value?, skipBlanks_cons (by decide)]
  simp only [skipBlanks_cons hblank]
  split
  · rename_i h
    exact absurd (List.cons.inj h).1 hc
  · rfl

theorem exists_succ_of_succ_le {k n : Nat} (h : k + 1 ≤ n) : ∃ m, n = m + 1 := ⟨n - 1, by omega⟩

theorem stops_cons {c : Char} (hc : c = ',' ∨ c = ']' ∨ c = '\x7d') (cs : List Char) : Stops (c :: cs) := by
  rintro _ ⟨⟩
  rcases hc with rfl | rfl | rfl <;> decide

mutual

/-- **A written document is read back**, whatever follows that could not belong to a number. -/
theorem value?_chars : ∀ (j : Json), j.Readable → ∀ {n d : Nat} (rest : List Char), j.steps ≤ n → j.depth ≤ d →
    Stops rest → value? n d (chars j ++ rest) = some (plain j, rest)
  | null, _, n, d, rest, hn, _, _ => by
    obtain ⟨n, rfl⟩ := exists_succ_of_succ_le hn
    rfl
  | bool true, _, n, d, rest, hn, _, _ => by
    obtain ⟨n, rfl⟩ := exists_succ_of_succ_le hn
    rfl
  | bool false, _, n, d, rest, hn, _, _ => by
    obtain ⟨n, rfl⟩ := exists_succ_of_succ_le hn
    rfl
  | number text, h, n, d, rest, hn, _, hrest => by
    obtain ⟨n, rfl⟩ := exists_succ_of_succ_le hn
    rw [plain]
    split_ifs with hnull
    · subst hnull
      rfl
    · have htext : NumberText text := h.resolve_left hnull
      obtain ⟨c, cs, hcs, hc⟩ := htext.begins
      have hreads := htext.reads rest hrest
      rw [hcs, List.cons_append] at hreads
      rw [chars, hcs, List.cons_append, value?_number hc, hreads]
  | string s, _, n, d, rest, hn, _, _ => by
    obtain ⟨n, rfl⟩ := exists_succ_of_succ_le hn
    exact value?_string s n d rest
  | array [], _, n, d, rest, hn, hd, _ => by
    obtain ⟨n, rfl⟩ := exists_succ_of_succ_le hn
    obtain ⟨d, rfl⟩ := exists_succ_of_succ_le hd
    rfl
  | array (j :: js), h, n, d, rest, hn, hd, _ => by
    obtain ⟨n, rfl⟩ := exists_succ_of_succ_le hn
    obtain ⟨d, rfl⟩ := exists_succ_of_succ_le hd
    obtain ⟨c, cs, hcs, hblank, hclose, -⟩ := chars_begins (j := j) h.1
    have hitems := items?_chars (j :: js) (by simp) h (n := n) (d := d) rest (by simpa [steps] using hn)
      (by simpa [depth] using hd)
    simp only [chars, itemChars, List.tail_cons, hcs, List.cons_append, List.append_assoc, List.nil_append] at hitems ⊢
    rw [value?_array hblank hclose, hitems]
    rfl
  | object [], _, n, d, rest, hn, hd, _ => by
    obtain ⟨n, rfl⟩ := exists_succ_of_succ_le hn
    obtain ⟨d, rfl⟩ := exists_succ_of_succ_le hd
    rfl
  | object ((k, j) :: ms), h, n, d, rest, hn, hd, _ => by
    obtain ⟨n, rfl⟩ := exists_succ_of_succ_le hn
    obtain ⟨d, rfl⟩ := exists_succ_of_succ_le hd
    have hmembers := members?_chars ((k, j) :: ms) (by simp) h (n := n) (d := d) rest
      (by simpa [steps] using hn) (by simpa [depth] using hd)
    simp only [chars, memberChars, List.tail_cons, quotedChars, List.cons_append, List.append_assoc,
      List.nil_append] at hmembers ⊢
    rw [value?_object (by decide) (by decide), hmembers]
    rfl

theorem items?_chars : ∀ (items : List Json), items ≠ [] → ReadableAll items → ∀ {n d : Nat} (rest : List Char),
    stepsAll items ≤ n → depthAll items ≤ d →
    items? n d ((itemChars items).tail ++ ']' :: rest) = some (plainAll items, rest)
  | [], hne, _, _, _, _, _, _ => absurd rfl hne
  | [j], _, h, n, d, rest, hn, hd => by
    obtain ⟨n, rfl⟩ := exists_succ_of_succ_le hn
    have hvalue := value?_chars j h.1 (n := n) (d := d) (']' :: rest) (by simpa [stepsAll] using hn)
      (by simpa [depthAll] using hd) (stops_cons (by simp) rest)
    simp only [itemChars, List.tail_cons, List.append_nil]
    rw [items?, hvalue]
    rfl
  | j :: j' :: js, _, h, n, d, rest, hn, hd => by
    obtain ⟨n, rfl⟩ := exists_succ_of_succ_le hn
    simp only [stepsAll, depthAll] at hn hd
    have hvalue := value?_chars j h.1 (n := n) (d := d) (',' :: (chars j' ++ (itemChars js ++ ']' :: rest)))
      (by omega) (by omega) (stops_cons (by simp) _)
    have hitems := items?_chars (j' :: js) (by simp) h.2 (n := n) (d := d) rest
      (by simp only [stepsAll]; omega) (by simp only [depthAll]; omega)
    simp only [itemChars, List.tail_cons, List.cons_append, List.append_assoc] at hitems ⊢
    rw [items?, hvalue]
    simp only [Option.bind_eq_bind, Option.bind_some, skipBlanks_cons (show isBlank ',' = false by decide), hitems]
    rfl

theorem members?_chars : ∀ (members : List (String × Json)), members ≠ [] → ReadableMembers members →
    ∀ {n d : Nat} (rest : List Char), stepsMembers members ≤ n → depthMembers members ≤ d →
    members? n d ((memberChars members).tail ++ '\x7d' :: rest) = some (plainMembers members, rest)
  | [], hne, _, _, _, _, _, _ => absurd rfl hne
  | [(k, j)], _, h, n, d, rest, hn, hd => by
    obtain ⟨n, rfl⟩ := exists_succ_of_succ_le hn
    obtain ⟨cs, hcs, hquoted⟩ := quoted?_quotedChars k (':' :: (chars j ++ '\x7d' :: rest))
    have hvalue := value?_chars j h.1 (n := n) (d := d) ('\x7d' :: rest) (by simpa [stepsMembers] using hn)
      (by simpa [depthMembers] using hd) (stops_cons (by simp) rest)
    simp only [memberChars, List.tail_cons, List.append_nil, List.append_assoc, List.cons_append]
    rw [hcs, members?, skipBlanks_cons (by decide)]
    simp only [hquoted, Option.bind_eq_bind, Option.bind_some, skipBlanks_cons (show isBlank ':' = false by decide),
      hvalue]
    rfl
  | (k, j) :: (k', j') :: ms, _, h, n, d, rest, hn, hd => by
    obtain ⟨n, rfl⟩ := exists_succ_of_succ_le hn
    simp only [stepsMembers, depthMembers] at hn hd
    obtain ⟨cs, hcs, hquoted⟩ := quoted?_quotedChars k
      (':' :: (chars j ++ ',' :: (quotedChars k' ++ ':' :: (chars j' ++ (memberChars ms ++ '\x7d' :: rest)))))
    have hvalue := value?_chars j h.1 (n := n) (d := d)
      (',' :: (quotedChars k' ++ ':' :: (chars j' ++ (memberChars ms ++ '\x7d' :: rest))))
      (by omega) (by omega) (stops_cons (by simp) _)
    have hmembers := members?_chars ((k', j') :: ms) (by simp) h.2 (n := n) (d := d) rest
      (by simp only [stepsMembers]; omega) (by simp only [depthMembers]; omega)
    simp only [memberChars, List.tail_cons, List.cons_append, List.append_assoc] at hmembers ⊢
    rw [hcs, members?, skipBlanks_cons (by decide)]
    simp only [hquoted, Option.bind_eq_bind, Option.bind_some, skipBlanks_cons (show isBlank ':' = false by decide),
      hvalue, skipBlanks_cons (show isBlank ',' = false by decide), hmembers]
    rfl

end

mutual

theorem steps_lt : ∀ (j : Json), j.Readable → steps j < 2 * (chars j).length
  | null, _ => by decide
  | bool true, _ => by decide
  | bool false, _ => by decide
  | number text, h => by
    obtain ⟨c, cs, hcs, -⟩ := chars_begins (j := number text) h
    simp only [hcs, List.length_cons, steps]
    omega
  | string s, _ => by
    simp only [steps, chars, quotedChars, List.length_append, List.length_cons, List.length_nil]
    omega
  | array items, h => by
    have hitems := stepsAll_le items h
    simp only [steps, chars, List.cons_append, List.length_cons, List.length_append, List.length_tail, List.length_nil]
    omega
  | object members, h => by
    have hmembers := stepsMembers_le members h
    simp only [steps, chars, List.cons_append, List.length_cons, List.length_append, List.length_tail, List.length_nil]
    omega

theorem stepsAll_le : ∀ (items : List Json), ReadableAll items → stepsAll items ≤ 2 * (itemChars items).length
  | [], _ => Nat.zero_le _
  | j :: js, h => by
    have hfirst := steps_lt j h.1
    have hrest := stepsAll_le js h.2
    simp only [stepsAll, itemChars, List.length_cons, List.length_append]
    omega

theorem stepsMembers_le : ∀ (members : List (String × Json)), ReadableMembers members →
    stepsMembers members ≤ 2 * (memberChars members).length
  | [], _ => Nat.zero_le _
  | (k, j) :: ms, h => by
    have hfirst := steps_lt j h.1
    have hrest := stepsMembers_le ms h.2
    simp only [stepsMembers, memberChars, List.length_cons, List.length_append]
    omega

end

/-- **The text of a document reads as the document**, if it is nested no deeper than the reader allows. -/
theorem parse?_compact {j : Json} (hj : j.Readable) (hdepth : j.depth ≤ maxDepth) :
    parse? j.compact = some j.plain := by
  have hsteps := steps_lt j hj
  have hread := value?_chars j hj (n := 2 * (chars j).length + 2) (d := maxDepth) [] (by omega) hdepth
    fun c hc => by cases hc
  rw [List.append_nil] at hread
  rw [parse?, toList_compact, hread]
  rfl

mutual

theorem chars_plain : ∀ j : Json, chars (plain j) = chars j
  | null => rfl
  | bool _ => rfl
  | number text => by
    rw [plain]
    split_ifs with h
    · subst h
      rfl
    · rfl
  | string _ => rfl
  | array items => by rw [plain, chars, chars, itemChars_plainAll items]
  | object members => by rw [plain, chars, chars, memberChars_plainMembers members]

theorem itemChars_plainAll : ∀ items : List Json, itemChars (plainAll items) = itemChars items
  | [] => rfl
  | j :: rest => by rw [plainAll, itemChars, itemChars, chars_plain j, itemChars_plainAll rest]

theorem memberChars_plainMembers : ∀ members : List (String × Json),
    memberChars (plainMembers members) = memberChars members
  | [] => rfl
  | (k, j) :: rest => by rw [plainMembers, memberChars, memberChars, chars_plain j, memberChars_plainMembers rest]

end

/-- **Documents have one text** exactly if they are the same, up to numbers that are written `null`. -/
theorem compact_eq_iff {j j' : Json} (hj : j.Readable) (hj' : j'.Readable) :
    j.compact = j'.compact ↔ j.plain = j'.plain := by
  constructor
  · intro h
    have hchars : chars j = chars j' := by rw [← toList_compact, h, toList_compact]
    have hstops : Stops [] := fun c hc => by cases hc
    have hread := value?_chars j hj [] (Nat.le_max_left j.steps j'.steps) (Nat.le_max_left j.depth j'.depth) hstops
    have hread' := value?_chars j' hj' [] (Nat.le_max_right j.steps j'.steps) (Nat.le_max_right j.depth j'.depth) hstops
    rw [hchars, hread'] at hread
    exact (Prod.mk.inj (Option.some.inj hread)).1.symm
  · intro h
    rw [← String.toList_inj, toList_compact, toList_compact, ← chars_plain, h, chars_plain]

end MatrixEngine.Json
