/-
The canonical form of a document: members sorted by name, the last of equal names kept, and every number in its
shortest text.

Members that are put in their places one after the other (`insertMember`) are sorted, and hold the last content of each
name (`sorted_inserted`, `lookup_inserted`). Sorted members are told by the content of each name (`Sorted.ext`), so the
canonical form of an object does not depend on the order of its members (`canonical_object_congr`).
-/
import MatrixEngine.Number.Decimal
import MatrixEngine.Text.Json.Reader

namespace MatrixEngine.Json

variable {β γ : Type} {k : String} {b : β} {members members' : List (String × β)}

/-! ## Sorted members -/

/-- put a member in its place among members sorted by name, replacing one of the same name -/
def insertMember (k : String) (b : β) : List (String × β) → List (String × β)
  | [] => [(k, b)]
  | (k', b') :: rest =>
    if k < k' then (k, b) :: (k', b') :: rest
    else if k = k' then (k, b) :: rest
    else (k', b') :: insertMember k b rest

/-- each name once, in order -/
def Sorted (members : List (String × β)) : Prop := members.Pairwise fun x y => x.1 < y.1

theorem mem_insertMember {x : String × β} (h : x ∈ insertMember k b members) : x = (k, b) ∨ x ∈ members := by
  induction members with
  | nil => exact .inl (List.mem_singleton.1 h)
  | cons e rest ih =>
    rw [insertMember] at h
    split at h
    · exact List.mem_cons.1 h
    · split at h
      · exact (List.mem_cons.1 h).imp_right (List.mem_cons_of_mem _)
      · rcases List.mem_cons.1 h with rfl | h
        · exact .inr List.mem_cons_self
        · exact (ih h).imp_right (List.mem_cons_of_mem _)

theorem lt_of_not_lt_of_ne {a b : String} (hlt : ¬ a < b) (hne : a ≠ b) : b < a :=
  String.not_le.1 fun hle => hne (String.le_antisymm hle (String.not_lt.1 hlt))

theorem Sorted.insertMember (h : Sorted members) (k : String) (b : β) : Sorted (insertMember k b members) := by
  induction members with
  | nil => exact List.pairwise_singleton _ _
  | cons e rest ih =>
    obtain ⟨hfirst, hrest⟩ := List.pairwise_cons.1 h
    rw [Json.insertMember]
    split
    next hlt =>
      refine List.pairwise_cons.2 ⟨fun x hx => ?_, h⟩
      rcases List.mem_cons.1 hx with rfl | hx
      · exact hlt
      · exact String.lt_trans hlt (hfirst x hx)
    next hlt =>
      split
      next heq =>
        subst heq
        exact List.pairwise_cons.2 ⟨hfirst, hrest⟩
      next hne =>
        refine List.pairwise_cons.2 ⟨fun x hx => ?_, ih hrest⟩
        rcases mem_insertMember hx with rfl | hx
        · exact lt_of_not_lt_of_ne hlt hne
        · exact hfirst x hx

theorem lookup_cons_if (k : String) (b : β) (rest : List (String × β)) (other : String) :
    ((k, b) :: rest).lookup other = if other = k then some b else rest.lookup other := by
  rw [List.lookup_cons]
  by_cases h : other = k
  · subst h
    rw [beq_self_eq_true, if_pos rfl]
  · rw [beq_false_of_ne h, if_neg h]

theorem lookup_insertMember (k : String) (b : β) (members : List (String × β)) (other : String) :
    (insertMember k b members).lookup other = if other = k then some b else members.lookup other := by
  induction members with
  | nil => rw [insertMember, lookup_cons_if, List.lookup_nil]
  | cons e rest ih =>
    obtain ⟨k', b'⟩ := e
    rw [insertMember]
    split
    · rw [lookup_cons_if]
    · split
      next heq =>
        subst heq
        rw [lookup_cons_if, lookup_cons_if]
        split <;> rfl
      next hne =>
        rw [lookup_cons_if, lookup_cons_if, ih]
        by_cases hk : other = k'
        · rw [if_pos hk, if_pos hk, if_neg fun h => hne (h.symm.trans hk)]
        · rw [if_neg hk, if_neg hk]

/-- **where names differ, members are what is looked up** -/
theorem mem_iff_lookup (h : members.Pairwise fun x y => x.1 ≠ y.1) (x : String × β) :
    x ∈ members ↔ members.lookup x.1 = some x.2 := by
  induction members with
  | nil => simp
  | cons e rest ih =>
    obtain ⟨k, b⟩ := e
    obtain ⟨other, b'⟩ := x
    obtain ⟨hfirst, hrest⟩ := List.pairwise_cons.1 h
    rw [List.mem_cons, lookup_cons_if, ih hrest, Prod.mk.injEq]
    split
    next hkey =>
      subst hkey
      -- the first name does not come again
      have hnot : rest.lookup other ≠ some b' := fun hb => hfirst _ ((ih hrest).2 hb) rfl
      simp only [hnot, or_false, true_and, Option.some.injEq, eq_comm]
    next hkey => simp only [hkey, false_and, false_or]

theorem Sorted.distinct (h : Sorted members) : members.Pairwise fun x y => x.1 ≠ y.1 :=
  h.imp String.ne_of_lt

/-- **Sorted members are told by the content of each name.** -/
theorem Sorted.ext (h : Sorted members) (h' : Sorted members') (hsame : ∀ k, members.lookup k = members'.lookup k) :
    members = members' := by
  have hnodup : ∀ {members : List (String × β)}, Sorted members → members.Nodup :=
    fun h => List.Pairwise.imp (fun hxy heq => hxy (congrArg Prod.fst heq)) h.distinct
  have hmem : ∀ x, x ∈ members ↔ x ∈ members' := fun x => by
    rw [mem_iff_lookup h.distinct, mem_iff_lookup h'.distinct, hsame]
  have hperm := (List.perm_ext_iff_of_nodup (hnodup h) (hnodup h')).2 hmem
  exact hperm.eq_of_pairwise (fun x y _ _ hxy hyx => absurd hxy (String.lt_asymm hyx)) h h'

/-- members put in their places one after the other -/
def inserted (members : List (String × β)) : List (String × β) :=
  members.foldl (fun sorted m => insertMember m.1 m.2 sorted) []

theorem sorted_inserted (members : List (String × β)) : Sorted (inserted members) := by
  have hfold : ∀ start : List (String × β), Sorted start →
      Sorted (members.foldl (fun sorted m => insertMember m.1 m.2 sorted) start) := by
    induction members with
    | nil => exact fun _ h => h
    | cons m rest ih => exact fun start h => ih _ (h.insertMember m.1 m.2)
  exact hfold [] .nil

/-- the content of a name is the one that was put in last -/
theorem lookup_inserted (members : List (String × β)) (k : String) :
    (inserted members).lookup k = members.reverse.lookup k := by
  have hfold : ∀ start : List (String × β), (members.foldl (fun sorted m => insertMember m.1 m.2 sorted) start).lookup k =
      (members.reverse.lookup k).or (start.lookup k) := by
    induction members with
    | nil => exact fun _ => rfl
    | cons m rest ih =>
      intro start
      rw [List.foldl_cons, ih, lookup_insertMember, List.reverse_cons, List.lookup_append, Option.or_assoc,
        lookup_cons_if, List.lookup_nil]
      split <;> rfl
  rw [inserted, hfold, List.lookup_nil, Option.or_none]

/-! ## The canonical form -/

/-- an integer keeps its text if it fits a signed or an unsigned 64-bit word; every other number is a float -/
def canonicalNumber (text : String) : String :=
  let (negative, ds) := match text.toList with
    | '-' :: ds => (true, ds)
    | ds => (false, ds)
  let limit := if negative then 0x8000000000000000 else Numeral.maxWord64
  let integer := ds.all Char.isDigit && (Numeral.digits? 10 ds).any (fun n => decide (n ≤ limit))
  if integer && !(negative && ds.all (· == '0')) then text
  else
    match Numeral.float? text with
    | some v => floatText v
    | none => text

mutual

def canonical : Json → Json
  | number text => number (canonicalNumber text)
  | array items => array (canonicalItems items)
  | object members => object (canonicalMembers members [])
  | j => j

def canonicalItems : List Json → List Json
  | [] => []
  | j :: rest => canonical j :: canonicalItems rest

/-- members in their order of reading put into a sorted list -/
def canonicalMembers : List (String × Json) → List (String × Json) → List (String × Json)
  | [], sorted => sorted
  | (k, j) :: rest, sorted => canonicalMembers rest (insertMember k (canonical j) sorted)

end

/-- **The members of an object** are put in their places, each in its canonical form. -/
theorem canonical_object (members : List (String × Json)) :
    canonical (object members) = object (inserted (members.map fun m => (m.1, canonical m.2))) := by
  have hfold : ∀ sorted, canonicalMembers members sorted =
      (members.map fun m => (m.1, canonical m.2)).foldl (fun sorted m => insertMember m.1 m.2 sorted) sorted := by
    induction members with
    | nil => exact fun sorted => by rw [canonicalMembers]; rfl
    | cons m rest ih => exact fun sorted => by rw [canonicalMembers, ih]; rfl
  rw [canonical, hfold, inserted]

theorem lookup_map_content (f : β → γ) (members : List (String × β)) (k : String) :
    (members.map fun m => (m.1, f m.2)).lookup k = (members.lookup k).map f := by
  induction members with
  | nil => rfl
  | cons m rest ih =>
    rw [List.map_cons, lookup_cons_if, lookup_cons_if, ih]
    split <;> rfl

/-- **In which order members come does not show**: objects in which each name last has the same content have one
canonical form. -/
theorem canonical_object_congr {members members' : List (String × Json)}
    (h : ∀ k, members.reverse.lookup k = members'.reverse.lookup k) :
    canonical (object members) = canonical (object members') := by
  rw [canonical_object, canonical_object]
  refine congrArg object ((sorted_inserted _).ext (sorted_inserted _) fun k => ?_)
  rw [lookup_inserted, lookup_inserted, ← List.map_reverse, ← List.map_reverse, lookup_map_content, lookup_map_content, h]

end MatrixEngine.Json
