/-
The characters of written documents.

The compact text of a document is the list of its characters (`chars`). A quoted string is read as the string
(`quoted?_quotedChars`), and the parts of a number, with a sign or none, are read as a number (`numberText_of_parts`),
whatever follows that could not belong to it.
-/
import Mathlib.Data.List.Basic
import Mathlib.Data.List.TakeDrop
import Mathlib.Tactic.IntervalCases
import Mathlib.Tactic.NormNum
import MatrixEngine.Text.Json.Reader

namespace MatrixEngine.Json

/-! ## Characters of the compact form -/

def quotedChars (s : String) : List Char := '"' :: (s.toList.flatMap fun c => (escape c).toList) ++ ['"']

mutual

def chars : Json → List Char
  | null => ['n', 'u', 'l', 'l']
  | bool true => ['t', 'r', 'u', 'e']
  | bool false => ['f', 'a', 'l', 's', 'e']
  | number text => text.toList
  | string s => quotedChars s
  | array items => '[' :: (itemChars items).tail ++ [']']
  | object members => '\x7b' :: (memberChars members).tail ++ ['\x7d']

/-- items with a comma in front of each -/
def itemChars : List Json → List Char
  | [] => []
  | j :: rest => ',' :: (chars j ++ itemChars rest)

/-- members with a comma in front of each -/
def memberChars : List (String × Json) → List Char
  | [] => []
  | (k, j) :: rest => ',' :: (quotedChars k ++ ':' :: (chars j ++ memberChars rest))

end

theorem toList_writeString (out s : String) : (writeString out s).toList = out.toList ++ quotedChars s := by
  have hfold : ∀ (cs : List Char) (out : String),
      (cs.foldl (fun out c => out ++ escape c) out).toList = out.toList ++ cs.flatMap fun c => (escape c).toList := by
    intro cs
    induction cs with
    | nil => simp
    | cons c cs ih => simp [ih]
  simp [writeString, quotedChars, hfold]

mutual

theorem toList_write : ∀ (j : Json) (out : String), (write out j).toList = out.toList ++ chars j
  | null, out => by simp [write, chars]
  | bool true, out => by simp [write, chars]
  | bool false, out => by simp [write, chars]
  | number text, out => by simp [write, chars]
  | string s, out => toList_writeString out s
  | array items, out => by simp [write, chars, toList_writeItems items]
  | object members, out => by simp [write, chars, toList_writeMembers members]

theorem toList_writeItems : ∀ (items : List Json) (out : String) (first : Bool), (writeItems out first items).toList =
    out.toList ++ if first then (itemChars items).tail else itemChars items
  | [], out, first => by simp [writeItems, itemChars]
  | j :: rest, out, first => by
    rw [writeItems, toList_writeItems rest, toList_write j]
    cases first <;> simp [itemChars]

theorem toList_writeMembers : ∀ (members : List (String × Json)) (out : String) (first : Bool),
    (writeMembers out first members).toList =
      out.toList ++ if first then (memberChars members).tail else memberChars members
  | [], out, first => by simp [writeMembers, memberChars]
  | (k, j) :: rest, out, first => by
    rw [writeMembers, toList_writeMembers rest, toList_write j, String.toList_push, toList_writeString]
    cases first <;> simp [memberChars]

end

theorem toList_compact (j : Json) : j.compact.toList = chars j := toList_write j ""

/-! ## Strings -/

theorem digits?_controlCode : ∀ n < 32, Numeral.digits? 16 ((controlCode (Char.ofNat n)).toList.drop 2) = some n := by
  decide

theorem toList_controlCode (c : Char) : ∃ x y, (controlCode c).toList = ['\\', 'u', '0', '0', x, y] :=
  ⟨_, _, String.toList_ofList⟩

theorem quoted?_escape (c : Char) (n : Nat) (acc rest : List Char) :
    quoted? (n + 1) acc ((escape c).toList ++ rest) = quoted? n (c :: acc) rest := by
  unfold escape
  split_ifs with hquote hslash hback htab hnew hform hreturn hcontrol
  iterate 7
    · subst c
      rfl
  · obtain ⟨x, y, hchars⟩ := toList_controlCode c
    have hdigits := digits?_controlCode c.toNat hcontrol
    rw [Char.ofNat_toNat, hchars] at hdigits
    have hunit : codeUnit? ('0' :: '0' :: x :: y :: rest) = some (c.toNat, rest) := by
      rw [codeUnit?]
      rw [show Numeral.digits? 16 ['0', '0', x, y] = some c.toNat from hdigits]
      rfl
    have hcode : escapedCode? ('0' :: '0' :: x :: y :: rest) = some (c, rest) := by
      rw [escapedCode?, hunit]
      simp only [Option.bind_eq_bind, Option.bind_some]
      rw [if_neg (by omega), if_neg (by omega), Char.ofNat_toNat]
      rfl
    rw [hchars]
    change (escapedCode? ('0' :: '0' :: x :: y :: rest) >>= fun p => quoted? n (p.1 :: acc) p.2) = _
    rw [hcode]
    rfl
  · have hchars : c.toString.toList = [c] := by simp
    rw [hchars, List.singleton_append]
    simp only [quoted?, if_neg hquote, if_neg hslash, if_neg hcontrol]

theorem quoted?_chars (cs : List Char) {n : Nat} (acc rest : List Char) (hn : cs.length < n) :
    quoted? n acc ((cs.flatMap fun c => (escape c).toList) ++ '"' :: rest) =
      some (String.ofList (acc.reverse ++ cs), rest) := by
  induction cs generalizing n acc with
  | nil =>
    obtain ⟨n, rfl⟩ := Nat.exists_eq_add_of_lt hn
    simp [quoted?]
  | cons c cs ih =>
    obtain ⟨n, rfl⟩ : ∃ m, n = m + 1 := ⟨n - 1, by omega⟩
    rw [List.flatMap_cons, List.append_assoc, quoted?_escape, ih _ (by simpa using hn)]
    simp

theorem length_le_escaped (cs : List Char) : cs.length ≤ (cs.flatMap fun c => (escape c).toList).length := by
  induction cs with
  | nil => exact Nat.le_refl _
  | cons c cs ih =>
    have hone : 1 ≤ (escape c).toList.length := by
      unfold escape
      split_ifs
      iterate 7
        · decide
      · obtain ⟨x, y, hchars⟩ := toList_controlCode c
        simp [hchars]
      · simp
    rw [List.flatMap_cons, List.length_append, List.length_cons]
    omega

theorem quoted?_quotedChars (s : String) (rest : List Char) : ∃ cs, quotedChars s ++ rest = '"' :: cs ∧
    quoted? (cs.length + 1) [] cs = some (s, rest) := by
  refine ⟨(s.toList.flatMap fun c => (escape c).toList) ++ '"' :: rest, by simp [quotedChars], ?_⟩
  have hlong := length_le_escaped s.toList
  rw [quoted?_chars s.toList [] rest (by rw [List.length_append]; omega)]
  simp

/-! ## Numbers -/

/-- nothing at the front that could belong to a number -/
def Stops (rest : List Char) : Prop := ∀ c ∈ rest.head?, c.isDigit = false ∧ c ≠ '.' ∧ c ≠ 'e' ∧ c ≠ 'E'

/-- a text that is read as a number, whatever follows -/
structure NumberText (text : String) : Prop where
  begins : ∃ c cs, text.toList = c :: cs ∧ (c = '-' ∨ c.isDigit = true)
  reads : ∀ rest, Stops rest → number? (text.toList ++ rest) = some (.number text, rest)

theorem NumberText.ne_null {text : String} (h : NumberText text) : text ≠ "null" := by
  rintro rfl
  obtain ⟨c, cs, hcs, hc⟩ := h.begins
  obtain ⟨rfl, -⟩ := List.cons.inj (show 'n' :: ['u', 'l', 'l'] = c :: cs from hcs)
  rcases hc with hc | hc <;> cases hc

/-- digits that begin with zero only if there is no other -/
structure WholePart (whole : List Char) : Prop where
  digits : ∀ c ∈ whole, c.isDigit = true
  nonempty : whole ≠ []
  leading : whole.head? = some '0' → whole = ['0']

def signChars (negative : Bool) : List Char := if negative then ['-'] else []

/-- a point and digits, or nothing -/
def fractionChars (frac : List Char) : List Char := if frac = [] then [] else '.' :: frac

/-- an exponent with its sign, or nothing -/
def exponentChars : Option Int → List Char
  | none => []
  | some k => 'e' :: (if k < 0 then '-' else '+') :: Nat.toDigits 10 k.natAbs

theorem spanDigits_append {ds rest : List Char} (hds : ∀ c ∈ ds, c.isDigit = true)
    (hrest : ∀ c ∈ rest.head?, c.isDigit = false) : Numeral.spanDigits (ds ++ rest) = (ds, rest) := by
  have hstop : rest.takeWhile Char.isDigit = [] ∧ rest.dropWhile Char.isDigit = rest := by
    cases rest with
    | nil => exact ⟨rfl, rfl⟩
    | cons c rest => simp [hrest c (by simp)]
  rw [Numeral.spanDigits, List.span_eq_takeWhile_dropWhile, List.takeWhile_append_of_pos hds, hstop.1,
    List.dropWhile_append_of_pos hds, hstop.2, List.append_nil]

theorem isDigit_of_toDigits {n : Nat} {c : Char} (h : c ∈ Nat.toDigits 10 n) : c.isDigit = true :=
  Nat.isDigit_of_mem_toDigits (by norm_num) (by norm_num) h

theorem stops_exponentChars {rest : List Char} (hrest : Stops rest) (e : Option Int) :
    ∀ c ∈ (exponentChars e ++ rest).head?, c.isDigit = false ∧ c ≠ '.' := by
  cases e with
  | none => exact fun c hc => ⟨(hrest c hc).1, (hrest c hc).2.1⟩
  | some k =>
    intro c hc
    obtain rfl : 'e' = c := Option.some.inj hc
    decide

theorem integerPart?_append {whole rest : List Char} (hwhole : WholePart whole)
    (hrest : ∀ c ∈ rest.head?, c.isDigit = false) : integerPart? (whole ++ rest) = some (whole, rest) := by
  obtain ⟨c, ds, rfl⟩ := List.exists_cons_of_ne_nil hwhole.nonempty
  by_cases hzero : c = '0'
  · obtain ⟨-, rfl⟩ := List.cons.inj (hwhole.leading (congrArg some hzero))
    subst hzero
    change (if (rest.head?.map Char.isDigit).getD false then none else some (['0'], rest)) = _
    rw [if_neg]
    cases rest with
    | nil => simp
    | cons c rest => simp [hrest c (by simp)]
  · have hdigits : integerPart? (c :: (ds ++ rest)) =
        if (Numeral.spanDigits (c :: (ds ++ rest))).1.isEmpty then none
        else some ((Numeral.spanDigits (c :: (ds ++ rest))).1, (Numeral.spanDigits (c :: (ds ++ rest))).2) := by
      unfold integerPart?
      split
      · rename_i h
        exact absurd (List.cons.inj h).1 hzero
      · rfl
    rw [List.cons_append, hdigits, ← List.cons_append, spanDigits_append hwhole.digits hrest]
    rfl

theorem fractionPart?_append {frac rest : List Char} (hfrac : ∀ c ∈ frac, c.isDigit = true)
    (hrest : ∀ c ∈ rest.head?, c.isDigit = false ∧ c ≠ '.') :
    fractionPart? (fractionChars frac ++ rest) = some (fractionChars frac, rest) := by
  unfold fractionChars
  split
  · rw [List.nil_append]
    unfold fractionPart?
    split
    · exact absurd rfl (hrest '.' rfl).2
    · rfl
  · rename_i hne
    have hspan := spanDigits_append hfrac fun c hc => (hrest c hc).1
    simp [fractionPart?, hspan, hne]

theorem exponentPart?_append {rest : List Char} (hrest : Stops rest) (e : Option Int) :
    exponentPart? (exponentChars e ++ rest) = some (exponentChars e, rest) := by
  cases e with
  | none =>
    change exponentPart? rest = some ([], rest)
    cases rest with
    | nil => rfl
    | cons c rest =>
      obtain ⟨-, -, he, hE⟩ := hrest c rfl
      simp only [exponentPart?, he, hE, or_self, if_false]
  | some k =>
    have hspan := spanDigits_append (fun c (hc : c ∈ Nat.toDigits 10 k.natAbs) => isDigit_of_toDigits hc)
      fun c hc => (hrest c hc).1
    have hne : (Nat.toDigits 10 k.natAbs).isEmpty = false := by simp [Nat.toDigits_ne_nil]
    rw [exponentChars]
    split
    · simp [exponentPart?, hspan, hne]
    · simp [exponentPart?, hspan, hne]

/-- the parts of a number with a sign or none are read as a number -/
theorem numberText_of_parts {text : String} {whole frac : List Char} {negative : Bool} {e : Option Int}
    (htext : text.toList = signChars negative ++ (whole ++ fractionChars frac ++ exponentChars e))
    (hwhole : WholePart whole) (hfrac : ∀ c ∈ frac, c.isDigit = true) : NumberText text := by
  obtain ⟨c, ds, hcons⟩ := List.exists_cons_of_ne_nil hwhole.nonempty
  have hc : c.isDigit = true := hwhole.digits c (by simp [hcons])
  have hminus : c ≠ '-' := by
    rintro rfl
    cases hc
  refine ⟨?_, fun rest hrest => ?_⟩
  · rw [htext]
    cases negative with
    | true => exact ⟨'-', _, rfl, .inl rfl⟩
    | false => exact ⟨c, _, by rw [hcons]; rfl, .inr hc⟩
  · have htail : ∀ c ∈ (fractionChars frac ++ (exponentChars e ++ rest)).head?, c.isDigit = false := by
      unfold fractionChars
      split
      · exact fun c hc => (stops_exponentChars hrest e c hc).1
      · intro c hc
        obtain rfl : '.' = c := Option.some.inj hc
        rfl
    have hwholePart := integerPart?_append hwhole htail
    have hfracPart := fractionPart?_append hfrac (stops_exponentChars hrest e)
    have hexpPart := exponentPart?_append hrest e
    have hback : String.ofList (signChars negative ++ whole ++ fractionChars frac ++ exponentChars e) = text := by
      rw [← String.ofList_toList (s := text), htext]
      simp only [List.append_assoc]
    rw [htext, ← hback]
    cases negative with
    | true =>
      simp only [signChars, if_true, List.cons_append, List.nil_append, number?, List.append_assoc, hwholePart,
        hfracPart, hexpPart, Option.bind_eq_bind, Option.bind_some]
      rfl
    | false =>
      rw [hcons, List.cons_append] at hwholePart
      simp only [signChars, Bool.false_eq_true, if_false, List.nil_append, List.append_assoc, hcons, List.cons_append]
      simp [number?, hminus, hwholePart, hfracPart, hexpPart, String.append_assoc]

theorem head?_toDigits {n : Nat} (hn : 0 < n) : (Nat.toDigits 10 n).head? ≠ some '0' := by
  induction n using Nat.strong_induction_on with
  | _ n ih =>
    by_cases hlt : n < 10
    · rw [Nat.toDigits_of_lt_base hlt]
      interval_cases n <;> decide
    · rw [Nat.toDigits_of_base_le (by norm_num) (not_lt.1 hlt), List.head?_append_of_ne_nil _ Nat.toDigits_ne_nil]
      exact ih (n / 10) (by omega) (by omega)

theorem wholePart_toDigits (n : Nat) : WholePart (Nat.toDigits 10 n) where
  digits _ h := isDigit_of_toDigits h
  nonempty := Nat.toDigits_ne_nil
  leading h := by
    rcases Nat.eq_zero_or_pos n with rfl | hn
    · rfl
    · exact absurd h (head?_toDigits hn)

theorem numberText_nat (n : Nat) : NumberText (toString n) := by
  have htext : (toString n).toList =
      signChars false ++ (Nat.toDigits 10 n ++ fractionChars [] ++ exponentChars none) := by
    simp [signChars, fractionChars, exponentChars]
  exact numberText_of_parts htext (wholePart_toDigits n) fun c hc => by cases hc

end MatrixEngine.Json
