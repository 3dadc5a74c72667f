/-
How deep a written document may be nested to be read back.

A reader opens no more containers inside one another than it may. A document that needs more is refused, wherever in it
the first one too many is opened (`value?_too_deep`); any other is read back. So the text of a document is read exactly
if the document is nested no deeper than the reader allows (`parse?_compact_eq`).
-/
import MatrixEngine.Proofs.Text.ReadBack

namespace MatrixEngine.Json

/-- no container is opened when none may be -/
theorem value?_shut {c : Char} (hc : c = '[' ∨ c = '\x7b') (n : Nat) (cs : List Char) :
    value? (n + 1) 0 (c :: cs) = none := by
  rcases hc with rfl | rfl <;> rfl

mutual

/-- a document with more open containers than allowed is refused, whatever follows -/
theorem value?_too_deep : ∀ (j : Json), j.Readable → ∀ {n d : Nat} (rest : List Char), j.steps ≤ n → d < j.depth →
    value? n d (chars j ++ rest) = none
  | null, _, _, _, _, _, hd => absurd hd (Nat.not_lt_zero _)
  | bool _, _, _, _, _, _, hd => absurd hd (Nat.not_lt_zero _)
  | number _, _, _, _, _, _, hd => absurd hd (Nat.not_lt_zero _)
  | string _, _, _, _, _, _, hd => absurd hd (Nat.not_lt_zero _)
  | array items, h, n, 0, rest, hn, _ => by
    obtain ⟨n, rfl⟩ := exists_succ_of_succ_le hn
    exact value?_shut (.inl rfl) n _
  | object members, h, n, 0, rest, hn, _ => by
    obtain ⟨n, rfl⟩ := exists_succ_of_succ_le hn
    exact value?_shut (.inr rfl) n _
  | array [], _, _, d + 1, _, _, hd => absurd hd (by simp [depth, depthAll])
  | array (j :: js), h, n, d + 1, rest, hn, hd => by
    obtain ⟨n, rfl⟩ := exists_succ_of_succ_le hn
    obtain ⟨c, cs, hcs, hblank, hclose, -⟩ := chars_begins (j := j) h.1
    have hitems := items?_too_deep (j :: js) h (n := n) (d := d) rest (by simpa [steps] using hn)
      (by simpa [depth] using hd)
    simp only [chars, itemChars, List.tail_cons, hcs, List.cons_append, List.append_assoc, List.nil_append] at hitems ⊢
    rw [value?_array hblank hclose, hitems]
    rfl
  | object [], _, _, d + 1, _, _, hd => absurd hd (by simp [depth, depthMembers])
  | object ((k, j) :: ms), h, n, d + 1, rest, hn, hd => by
    obtain ⟨n, rfl⟩ := exists_succ_of_succ_le hn
    have hmembers := members?_too_deep ((k, j) :: ms) h (n := n) (d := d) rest
      (by simpa [steps] using hn) (by simpa [depth] using hd)
    simp only [chars, memberChars, List.tail_cons, quotedChars, List.cons_append, List.append_assoc,
      List.nil_append] at hmembers ⊢
    rw [value?_object (by decide) (by decide), hmembers]
    rfl

theorem items?_too_deep : ∀ (items : List Json), ReadableAll items → ∀ {n d : Nat} (rest : List Char),
    stepsAll items ≤ n → d < depthAll items → items? n d ((itemChars items).tail ++ ']' :: rest) = none
  | [], _, _, _, _, _, hd => absurd hd (Nat.not_lt_zero _)
  | [j], h, n, d, rest, hn, hd => by
    obtain ⟨n, rfl⟩ := exists_succ_of_succ_le hn
    have hvalue := value?_too_deep j h.1 (n := n) (d := d) (']' :: rest) (by simpa [stepsAll] using hn)
      (by simpa [depthAll] using hd)
    simp only [itemChars, List.tail_cons, List.append_nil]
    rw [items?, hvalue]
    rfl
  | j :: j' :: js, h, n, d, rest, hn, hd => by
    obtain ⟨n, rfl⟩ := exists_succ_of_succ_le hn
    simp only [stepsAll] at hn
    simp only [depthAll] at hd
    by_cases hfirst : d < j.depth
    · have hvalue := value?_too_deep j h.1 (n := n) (d := d) (itemChars (j' :: js) ++ ']' :: rest) (by omega) hfirst
      simp only [itemChars, List.tail_cons, List.append_assoc] at hvalue ⊢
      rw [items?, hvalue]
      rfl
    · -- the first item is read, so one of the others is too deep
      have hvalue := value?_chars j h.1 (n := n) (d := d) (itemChars (j' :: js) ++ ']' :: rest) (by omega) (by omega)
        (stops_cons (by simp) _)
      have hitems := items?_too_deep (j' :: js) h.2 (n := n) (d := d) rest
        (by simp only [stepsAll]; omega) (by simp only [depthAll]; omega)
      simp only [itemChars, List.tail_cons, List.cons_append, List.append_assoc] at hvalue hitems ⊢
      rw [items?, hvalue]
      simp only [Option.bind_eq_bind, Option.bind_some, skipBlanks_cons (show isBlank ',' = false by decide), hitems]
      rfl

theorem members?_too_deep : ∀ (members : List (String × Json)), ReadableMembers members → ∀ {n d : Nat}
    (rest : List Char), stepsMembers members ≤ n → d < depthMembers members →
    members? n d ((memberChars members).tail ++ '\x7d' :: rest) = none
  | [], _, _, _, _, _, hd => absurd hd (Nat.not_lt_zero _)
  | [(k, j)], h, n, d, rest, hn, hd => by
    obtain ⟨n, rfl⟩ := exists_succ_of_succ_le hn
    obtain ⟨cs, hcs, hquoted⟩ := quoted?_quotedChars k (':' :: (chars j ++ '\x7d' :: rest))
    have hvalue := value?_too_deep j h.1 (n := n) (d := d) ('\x7d' :: rest) (by simpa [stepsMembers] using hn)
      (by simpa [depthMembers] using hd)
    simp only [memberChars, List.tail_cons, List.append_nil, List.append_assoc, List.cons_append]
    rw [hcs, members?, skipBlanks_cons (by decide)]
    simp only [hquoted, Option.bind_eq_bind, Option.bind_some, skipBlanks_cons (show isBlank ':' = false by decide),
      hvalue]
    rfl
  | (k, j) :: (k', j') :: ms, h, n, d, rest, hn, hd => by
    obtain ⟨n, rfl⟩ := exists_succ_of_succ_le hn
    simp only [stepsMembers] at hn
    simp only [depthMembers] at hd
    obtain ⟨cs, hcs, hquoted⟩ := quoted?_quotedChars k
      (':' :: (chars j ++ (memberChars ((k', j') :: ms) ++ '\x7d' :: rest)))
    by_cases hfirst : d < j.depth
    · have hvalue := value?_too_deep j h.1 (n := n) (d := d) (memberChars ((k', j') :: ms) ++ '\x7d' :: rest)
        (by omega) hfirst
      simp only [memberChars, List.tail_cons, List.append_assoc, List.cons_append] at hcs hquoted hvalue ⊢
      rw [hcs, members?, skipBlanks_cons (by decide)]
      simp only [hquoted, Option.bind_eq_bind, Option.bind_some, skipBlanks_cons (show isBlank ':' = false by decide),
        hvalue]
      rfl
    · have hvalue := value?_chars j h.1 (n := n) (d := d) (memberChars ((k', j') :: ms) ++ '\x7d' :: rest)
        (by omega) (by omega) (stops_cons (by simp) _)
      have hmembers := members?_too_deep ((k', j') :: ms) h.2 (n := n) (d := d) rest
        (by simp only [stepsMembers]; omega) (by simp only [depthMembers]; omega)
      simp only [memberChars, List.tail_cons, List.append_assoc, List.cons_append] at hcs hquoted hvalue hmembers ⊢
      rw [hcs, members?, skipBlanks_cons (by decide)]
      simp only [hquoted, Option.bind_eq_bind, Option.bind_some, skipBlanks_cons (show isBlank ':' = false by decide),
        hvalue, skipBlanks_cons (show isBlank ',' = false by decide), hmembers]
      rfl

end

/-- **The text of a document is read exactly if it is nested no deeper than the reader allows.** -/
theorem parse?_compact_eq {j : Json} (hj : j.Readable) :
    parse? j.compact = if j.depth ≤ maxDepth then some j.plain else none := by
  split_ifs with hdepth
  · exact parse?_compact hj hdepth
  · have hsteps := steps_lt j hj
    have hread := value?_too_deep j hj (n := 2 * (chars j).length + 2) (d := maxDepth) [] (by omega) (by omega)
    rw [List.append_nil] at hread
    rw [parse?, toList_compact, hread]
    rfl

end MatrixEngine.Json
