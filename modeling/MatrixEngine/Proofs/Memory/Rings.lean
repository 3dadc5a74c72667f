/-
Scratch vectors lent in turn, over any history of requests.

The rings of two lengths do not see one another, and a refused request sees none, so what a request finds depends on the
earlier requests of its own length only (`after_turns`). A ring passes its turn on by one with every request, so the
requests of one length take its vectors in a cycle, and a vector is in nobody else's hands until its turn comes again.
- `serve_turns`: what one request, with what its holder writes, does to a ring of its own length and of another.
- `Runs.turn`, `Runs.getElem?_turn`: a turn keeps the shape of a ring and changes the vector whose turn it is.
- `Runs.getElem?_turns`: so over any number of turns, as long as a vector's turn does not come.
- `vectors_taken_in_turn`: who is served, with which vector, and what is found in it.
-/
import Mathlib.Tactic
import MatrixEngine.Memory.Scratch
import MatrixEngine.Proofs.Number.Sums
import MatrixEngine.Rowwise.Write

namespace MatrixEngine

open Cell

variable {α : Type} [Cell α]

/-- a request for a vector, zeroed on demand, with what its holder writes to the vector before the next request -/
structure ScratchCall (α : Type) where
  len : Nat
  reset : Bool
  write : Write α

namespace ScratchCall

/-- what the holder finds, given what the vector held -/
def found (c : ScratchCall α) (held : Array α) : Array α := if c.reset then zeros c.len else held

/-- what the holder leaves, given what was found -/
def left (c : ScratchCall α) (found : Array α) : Array α := (c.write.apply found.toVector).toArray

omit [Cell α] in
@[simp] theorem size_left (c : ScratchCall α) (found : Array α) : (c.left found).size = found.size := by simp [left]

end ScratchCall

namespace Scratch

/-- the vectors after a call; a request that is refused leaves them as they are -/
def serve (s : Scratch α) (c : ScratchCall α) : Scratch α :=
  match s.request c.len c.reset with
  | .ok (slot, s') => s'.modify slot c.left
  | .error _ => s

/-- the vectors after calls in order -/
def after (s : Scratch α) (calls : List (ScratchCall α)) : Scratch α := calls.foldl serve s

/-- which vector call `n` is lent and what it finds there, if its request is not refused -/
def lent? (s : Scratch α) (calls : List (ScratchCall α)) (n : Nat) : Option (Slot × Array α) :=
  calls[n]?.bind fun c =>
    match (s.after (calls.take n)).request c.len c.reset with
    | .ok (slot, s') => some (slot, s'.read slot)
    | .error _ => none

/-- how many requests for vectors of a length come before call `n` -/
def turnsBefore (calls : List (ScratchCall α)) (len n : Nat) : Nat := (calls.take n).countP (·.len = len)

end Scratch

/-! ## Rings by their lengths -/

namespace Ring

/-- change the content of a vector -/
def change (r : Ring α) (index : Nat) (f : Array α → Array α) : Ring α :=
  { r with vectors := r.vectors.modify index f }

omit [Cell α] in
theorem change_id (r : Ring α) (index : Nat) : r.change index (fun held => held) = r := by
  have hvectors : r.vectors.modify index (fun held => held) = r.vectors := by
    refine Array.ext_getElem? fun i => ?_
    rw [Array.getElem?_modify]
    split_ifs with hi
    · exact Option.map_id_apply
    · rfl
  unfold change
  rw [hvectors]

omit [Cell α] in
theorem change_change (r : Ring α) (index : Nat) (f g : Array α → Array α) :
    (r.change index f).change index g = r.change index fun held => g (f held) := by
  have hvectors : (r.vectors.modify index f).modify index g = r.vectors.modify index fun held => g (f held) := by
    refine Array.ext_getElem? fun i => ?_
    rw [Array.getElem?_modify, Array.getElem?_modify, Array.getElem?_modify]
    split_ifs with hi
    · rw [Option.map_map]
      rfl
    · rfl
  unfold change
  simp only [hvectors]

/-- a ring after a call for its length -/
def turn (r : Ring α) (c : ScratchCall α) : Ring α :=
  match r.advance? with
  | some (slot, r') => r'.change slot fun held => c.left (c.found held)
  | none => r

omit [Cell α] in
theorem len_of_advance? {r r' : Ring α} {slot : Nat} (h : r.advance? = some (slot, r')) : r'.len = r.len := by
  unfold advance? at h
  simp only at h
  split_ifs at h
  obtain ⟨-, rfl⟩ := Prod.mk.inj (Option.some.inj h)
  rfl

end Ring

namespace Scratch

variable {s : Scratch α}

/-- the ring that serves a length -/
def ring? (s : Scratch α) (len : Nat) : Option (Ring α) := s.rings.find? (·.len = len)

omit [Cell α] in
/-- a change of the ring of one length that keeps its length is not seen at another -/
theorem find?_updateRing {len : Nat} {f : Ring α → Ring α} (hf : ∀ r, r.len = len → (f r).len = len)
    (rings : List (Ring α)) (l : Nat) :
    (updateRing len f rings).find? (·.len = l) =
      if len = l then (rings.find? (·.len = l)).map f else rings.find? (·.len = l) := by
  induction rings with
  | nil => simp [updateRing]
  | cons r rest ih =>
    unfold updateRing
    by_cases hr : r.len = len
    · have hfr := hf r hr
      rw [if_pos hr]
      by_cases hl : len = l
      · subst hl
        simp [hr, hfr]
      · have hrl : r.len ≠ l := fun h => hl (hr.symm.trans h)
        have hfl : (f r).len ≠ l := fun h => hl (hfr.symm.trans h)
        simp [hl, hrl, hfl]
    · rw [if_neg hr]
      by_cases hrl : r.len = l
      · have hl : len ≠ l := fun h => hr (hrl.trans h.symm)
        simp [hrl, hl]
      · simp [hrl, ih]

omit [Cell α] in
theorem map_len_updateRing {len : Nat} {f : Ring α → Ring α} (hf : ∀ r, r.len = len → (f r).len = len)
    (rings : List (Ring α)) : (updateRing len f rings).map (·.len) = rings.map (·.len) := by
  induction rings with
  | nil => rfl
  | cons r rest ih =>
    unfold updateRing
    split_ifs with hr
    · simp [hf r hr, hr]
    · simp [ih]

omit [Cell α] in
theorem ring?_modify (s : Scratch α) (slot : Slot) (f : Array α → Array α) (l : Nat) :
    (s.modify slot f).ring? l = if slot.len = l then (s.ring? l).map (·.change slot.index f) else s.ring? l :=
  find?_updateRing (f := fun r => r.change slot.index f) (fun _ hr => hr) s.rings l

omit [Cell α] in
theorem lengths_modify (s : Scratch α) (slot : Slot) (f : Array α → Array α) : (s.modify slot f).lengths = s.lengths :=
  map_len_updateRing (f := fun r => r.change slot.index f) (fun _ hr => hr) s.rings

theorem request_unserved {len : Nat} (h : s.ring? len = none) (reset : Bool) :
    s.request len reset = .error (.noScratchVector len s.lengths) := by
  unfold request
  unfold ring? at h
  simp only [h]

/-- a request for a length that a ring serves passes the turn of that ring on, and clears the vector on demand -/
theorem request_served {len slot : Nat} {r r' : Ring α} (h : s.ring? len = some r) (ha : r.advance? = some (slot, r'))
    (reset : Bool) :
    ∃ s', s.request len reset = .ok (⟨len, slot⟩, s') ∧ s'.lengths = s.lengths ∧ ∀ l, s'.ring? l =
      if len = l then some (r'.change slot fun held => if reset then zeros len else held) else s.ring? l := by
  have hfind : s.rings.find? (·.len = len) = some r := h
  have hlen : r'.len = len := (Ring.len_of_advance? ha).trans (by simpa using List.find?_some hfind)
  set passed : Scratch α := ⟨updateRing len (fun _ => r') s.rings, s.guard⟩
  have hlengths : passed.lengths = s.lengths := map_len_updateRing (fun _ _ => hlen) s.rings
  have hring : ∀ l, passed.ring? l = if len = l then some r' else s.ring? l := by
    intro l
    have hupdate : passed.ring? l = if len = l then (s.ring? l).map fun _ => r' else s.ring? l :=
      find?_updateRing (fun _ _ => hlen) s.rings l
    rw [hupdate]
    split_ifs with hl
    · rw [← hl, h, Option.map_some]
    · rfl
  refine ⟨if reset then passed.modify ⟨len, slot⟩ fun _ => zeros len else passed, ?_, ?_, ?_⟩
  · unfold request
    simp only [hfind, ha]
    rfl
  · cases reset with
    | false => exact hlengths
    | true => exact (lengths_modify passed ⟨len, slot⟩ _).trans hlengths
  · intro l
    cases reset with
    | false =>
      simp only [Bool.false_eq_true, if_false, Ring.change_id]
      exact hring l
    | true =>
      simp only [if_true]
      rw [ring?_modify, hring]
      split_ifs <;> rfl

/-- **One call** turns the ring of its length and leaves every other one as it is; a call that is refused leaves all as
they are. -/
theorem serve_turns (s : Scratch α) (c : ScratchCall α) :
    (s.serve c).lengths = s.lengths ∧
      ∀ l, (s.serve c).ring? l = if c.len = l then (s.ring? l).map (·.turn c) else s.ring? l := by
  cases hr : s.ring? c.len with
  | none =>
    have hserve : s.serve c = s := by
      unfold serve
      rw [request_unserved hr]
    rw [hserve]
    refine ⟨rfl, fun l => ?_⟩
    split_ifs with hl
    · rw [← hl, hr, Option.map_none]
    · rfl
  | some r =>
    cases ha : r.advance? with
    | none =>
      have hserve : s.serve c = s := by
        have hfind : s.rings.find? (·.len = c.len) = some r := hr
        unfold serve request
        simp only [hfind, ha]
      rw [hserve]
      refine ⟨rfl, fun l => ?_⟩
      split_ifs with hl
      · rw [← hl, hr, Option.map_some, Ring.turn, ha]
      · rfl
    | some out =>
      obtain ⟨slot, r'⟩ := out
      obtain ⟨s', hs', hlengths, hring⟩ := request_served hr ha c.reset
      have hserve : s.serve c = s'.modify ⟨c.len, slot⟩ c.left := by
        unfold serve
        rw [hs']
      have hfound : ∀ l, s'.ring? l = if c.len = l then some (r'.change slot c.found) else s.ring? l := hring
      rw [hserve]
      refine ⟨(lengths_modify s' ⟨c.len, slot⟩ c.left).trans hlengths, fun l => ?_⟩
      rw [ring?_modify, hfound]
      by_cases hl : c.len = l
      · rw [if_pos hl, if_pos hl, if_pos hl, ← hl, hr, Option.map_some, Option.map_some, Ring.change_change, Ring.turn,
          ha]
      · rw [if_neg hl, if_neg hl, if_neg hl]

/-- **After any calls** a ring is what the calls for its length, in order, make of it. -/
theorem after_turns (s : Scratch α) (calls : List (ScratchCall α)) :
    (s.after calls).lengths = s.lengths ∧
      ∀ l, (s.after calls).ring? l = (s.ring? l).map fun r => (calls.filter (·.len = l)).foldl Ring.turn r := by
  induction calls generalizing s with
  | nil => exact ⟨rfl, fun l => by simp [after]⟩
  | cons c calls ih =>
    obtain ⟨hlengths, hring⟩ := serve_turns s c
    obtain ⟨hrest, hrings⟩ := ih (s.serve c)
    refine ⟨hrest.trans hlengths, fun l => ?_⟩
    have hcons : (s.after (c :: calls)).ring? l = ((s.serve c).after calls).ring? l := rfl
    rw [hcons, hrings l, hring l]
    by_cases hl : c.len = l
    · rw [if_pos hl, List.filter_cons_of_pos (by simpa using hl), Option.map_map]
      rfl
    · rw [if_neg hl, List.filter_cons_of_neg (by simpa using hl)]

end Scratch

/-! ## Turns of one ring -/

namespace Ring

/-- a ring of `count` vectors of a length after `t` turns -/
structure Runs (r : Ring α) (len count t : Nat) : Prop where
  len_eq : r.len = len
  count_eq : r.vectors.size = count
  next_eq : r.next = t % count
  sizes : ∀ v ∈ r.vectors, v.size = len

variable {r : Ring α} {len count t : Nat}

theorem runs_ofCount (len count : Nat) : (ofCount len count : Ring α).Runs len count 0 := by
  constructor
  · rfl
  · exact Array.size_replicate
  · exact (Nat.zero_mod count).symm
  · intro v hv
    obtain rfl := (Array.mem_replicate.1 hv).2
    exact size_zeros len

omit [Cell α] in
theorem Runs.advance? (h : r.Runs len count t) (hcount : 0 < count) :
    r.advance? = some (t % count, { r with next := (t + 1) % count }) := by
  obtain ⟨rlen, vectors, next⟩ := r
  obtain ⟨rfl, rfl, hnext, -⟩ := h
  simp only at hnext hcount
  unfold Ring.advance?
  simp only [hnext, hcount.ne', if_false, Nat.mod_mod, Nat.mod_add_mod]

/-- a turn changes the vector whose turn it is, and no other -/
theorem Runs.getElem?_turn (h : r.Runs len count t) (hcount : 0 < count) (c : ScratchCall α) (i : Nat) :
    (r.turn c).vectors[i]? =
      if t % count = i then r.vectors[i]?.map fun held => c.left (c.found held) else r.vectors[i]? := by
  rw [turn, h.advance? hcount]
  exact Array.getElem?_modify

theorem Runs.turn (h : r.Runs len count t) (hcount : 0 < count) {c : ScratchCall α} (hc : c.len = len) :
    (r.turn c).Runs len count (t + 1) := by
  have hturn : r.turn c = change { r with next := (t + 1) % count } (t % count) fun held => c.left (c.found held) := by
    rw [Ring.turn, h.advance? hcount]
  constructor
  · rw [hturn]
    exact h.len_eq
  · rw [hturn]
    exact (Array.size_modify).trans h.count_eq
  · rw [hturn]
    rfl
  · intro v hv
    obtain ⟨i, hi⟩ := Array.mem_iff_getElem?.1 hv
    rw [h.getElem?_turn hcount] at hi
    split_ifs at hi with hslot
    · obtain ⟨held, hheld, rfl⟩ := Option.map_eq_some_iff.1 hi
      have hsize : held.size = len := h.sizes held (Array.mem_of_getElem? hheld)
      rw [ScratchCall.size_left, ScratchCall.found]
      split_ifs
      · rw [size_zeros, hc]
      · exact hsize
    · exact h.sizes v (Array.mem_of_getElem? hi)

theorem Runs.turns (h : r.Runs len count t) (hcount : 0 < count) {calls : List (ScratchCall α)}
    (hcalls : ∀ c ∈ calls, c.len = len) : (calls.foldl Ring.turn r).Runs len count (t + calls.length) := by
  induction calls generalizing r t with
  | nil => exact h
  | cons c calls ih =>
    have hnext := h.turn hcount (hcalls c List.mem_cons_self)
    have hrest := ih hnext fun x hx => hcalls x (List.mem_cons_of_mem c hx)
    rw [Nat.add_right_comm] at hrest
    exact hrest

/-- **A vector is left alone until its turn comes.** -/
theorem Runs.getElem?_turns (h : r.Runs len count t) (hcount : 0 < count) {calls : List (ScratchCall α)}
    (hcalls : ∀ c ∈ calls, c.len = len) {i : Nat} (hi : ∀ j < calls.length, (t + j) % count ≠ i) :
    (calls.foldl Ring.turn r).vectors[i]? = r.vectors[i]? := by
  induction calls generalizing r t with
  | nil => rfl
  | cons c calls ih =>
    have hnext := h.turn hcount (hcalls c List.mem_cons_self)
    have hfirst : t % count ≠ i := hi 0 (Nat.succ_pos _)
    have hlater : ∀ j < calls.length, (t + 1 + j) % count ≠ i := by
      intro j hj
      have := hi (j + 1) (Nat.succ_lt_succ hj)
      rwa [Nat.add_right_comm t 1 j]
    calc ((c :: calls).foldl Ring.turn r).vectors[i]?
        = (r.turn c).vectors[i]? := ih hnext (fun x hx => hcalls x (List.mem_cons_of_mem c hx)) hlater
      _ = r.vectors[i]? := by rw [h.getElem?_turn hcount, if_neg hfirst]

/-- fewer than `count` turns further on it is the turn of another vector -/
theorem turn_ne {t j count : Nat} (hj : j + 1 < count) : (t + 1 + j) % count ≠ t % count := by
  intro h
  have hmod : (j + 1) % count = 0 := by
    have hsame : t + (j + 1) ≡ t + 0 [MOD count] := by
      rw [Nat.add_comm j 1, ← Nat.add_assoc]
      exact h
    exact Nat.ModEq.add_left_cancel' t hsame
  rw [Nat.mod_eq_of_lt hj] at hmod
  omega

end Ring

/-! ## Acquired vectors -/

namespace Scratch

variable {b b' : Budget} {count len : Nat} {len2 : Option Nat} {s : Scratch α} {calls : List (ScratchCall α)}

theorem mem_lengthsFor {l : Nat} : l ∈ lengthsFor len len2 ↔ l = len ∨ len2 = some l ∧ 0 < l := by
  cases len2 with
  | none => simp [lengthsFor]
  | some l2 =>
    unfold lengthsFor
    simp only
    split_ifs with h
    · simp only [List.mem_cons, List.not_mem_nil, or_false, Option.some.injEq]
      constructor
      · rintro (rfl | rfl)
        · exact Or.inl rfl
        · exact Or.inr ⟨rfl, h.2⟩
      · rintro (rfl | ⟨rfl, -⟩)
        · exact Or.inl rfl
        · exact Or.inr rfl
    · simp only [List.mem_singleton, Option.some.injEq]
      constructor
      · exact Or.inl
      · rintro (rfl | ⟨rfl, hpos⟩)
        · rfl
        · by_contra hne
          exact h ⟨hne, hpos⟩

/-- acquired vectors stand in a ring for each length, none of them lent yet -/
theorem rings_of_acquire (hcount : 0 < count) (hs : acquire b count len len2 = .ok (s, b')) :
    s.rings = (lengthsFor len len2).map (Ring.ofCount · count) := by
  unfold acquire at hs
  rw [if_neg hcount.ne'] at hs
  cases hb : b.acquire (bytesFor count (lengthsFor len len2)) "scratch" with
  | error e => simp [hb, bind, Except.bind] at hs
  | ok out =>
    obtain ⟨g, budget⟩ := out
    simp only [hb, bind, Except.bind, pure, Except.pure, Except.ok.injEq, Prod.mk.injEq] at hs
    rw [← hs.1]

theorem lengths_of_acquire (hcount : 0 < count) (hs : acquire b count len len2 = .ok (s, b')) :
    s.lengths = lengthsFor len len2 := by
  unfold lengths
  rw [rings_of_acquire hcount hs, List.map_map]
  exact List.map_id _

theorem ring?_of_acquire (hcount : 0 < count) (hs : acquire b count len len2 = .ok (s, b')) (l : Nat) :
    s.ring? l = if l ∈ lengthsFor len len2 then some (Ring.ofCount l count) else none := by
  unfold ring?
  rw [rings_of_acquire hcount hs]
  induction lengthsFor len len2 with
  | nil => rfl
  | cons head lens ih =>
    rw [List.map_cons, List.find?_cons]
    by_cases hl : head = l
    · have hhead : decide ((Ring.ofCount head count : Ring α).len = l) = true := decide_eq_true hl
      rw [hhead, if_pos (hl ▸ List.mem_cons_self), hl]
    · have hhead : decide ((Ring.ofCount head count : Ring α).len = l) = false := decide_eq_false hl
      have hmem : l ∈ head :: lens ↔ l ∈ lens := by
        rw [List.mem_cons]
        exact or_iff_right fun h => hl h.symm
      rw [hhead, ih]
      simp only [hmem]

/-- the ring of a length after calls, if the length is served -/
def ringAfter (l count : Nat) (calls : List (ScratchCall α)) : Ring α :=
  (calls.filter (·.len = l)).foldl Ring.turn (.ofCount l count)

theorem runs_ringAfter (hcount : 0 < count) (l : Nat) (calls : List (ScratchCall α)) :
    (ringAfter l count calls).Runs l count (calls.countP (·.len = l)) := by
  have hcalls : ∀ c ∈ calls.filter (·.len = l), c.len = l := by
    intro c hc
    simpa using (List.mem_filter.1 hc).2
  have hruns := (Ring.runs_ofCount l count).turns hcount hcalls
  rwa [Nat.zero_add, ← List.countP_eq_length_filter] at hruns

/-- a request for a length that is not served is refused and changes nothing -/
theorem refused_of_unserved (hcount : 0 < count) (hs : acquire b count len len2 = .ok (s, b')) {n : Nat}
    {c : ScratchCall α} (hn : calls[n]? = some c) (hl : c.len ∉ lengthsFor len len2) :
    (s.after (calls.take n)).request c.len c.reset = .error (.noScratchVector c.len (lengthsFor len len2)) ∧
      s.after (calls.take (n + 1)) = s.after (calls.take n) := by
  obtain ⟨hlengths, hrings⟩ := after_turns s (calls.take n)
  have hnone : (s.after (calls.take n)).ring? c.len = none := by
    rw [hrings, ring?_of_acquire hcount hs, if_neg hl, Option.map_none]
  have hrefused := request_unserved hnone c.reset
  rw [hlengths, lengths_of_acquire hcount hs] at hrefused
  refine ⟨hrefused, ?_⟩
  have hserve : (s.after (calls.take n)).serve c = s.after (calls.take n) := by
    unfold serve
    rw [hrefused]
  rw [List.take_add_one, hn, after, List.foldl_append]
  exact hserve

omit [Cell α] in
theorem read_of_ring? {slot : Slot} {r : Ring α} {v : Array α} (hr : s.ring? slot.len = some r)
    (hv : r.vectors[slot.index]? = some v) : s.read slot = v := by
  unfold ring? at hr
  unfold read
  rw [hr, Option.bind_some, hv, Option.getD_some]

theorem lent?_served (hcount : 0 < count) (hs : acquire b count len len2 = .ok (s, b')) {n : Nat} {c : ScratchCall α}
    (hn : calls[n]? = some c) (hl : c.len ∈ lengthsFor len len2) :
    ∃ held, (ringAfter c.len count (calls.take n)).vectors[turnsBefore calls c.len n % count]? = some held ∧
      held.size = c.len ∧
      s.lent? calls n = some (⟨c.len, turnsBefore calls c.len n % count⟩, c.found held) := by
  have hruns := runs_ringAfter hcount c.len (calls.take n)
  have hring : (s.after (calls.take n)).ring? c.len = some (ringAfter c.len count (calls.take n)) := by
    rw [(after_turns s (calls.take n)).2, ring?_of_acquire hcount hs, if_pos hl]
    rfl
  generalize ringAfter c.len count (calls.take n) = r at hruns hring
  change r.Runs c.len count (turnsBefore calls c.len n) at hruns
  generalize turnsBefore calls c.len n = t at hruns
  have hslot : t % count < r.vectors.size := by
    rw [hruns.count_eq]
    exact Nat.mod_lt t hcount
  obtain ⟨held, hheld⟩ : ∃ held, r.vectors[t % count]? = some held := ⟨_, Array.getElem?_eq_getElem hslot⟩
  obtain ⟨s', hs', -, hrings⟩ := request_served hring (hruns.advance? hcount) c.reset
  have hread : s'.read ⟨c.len, t % count⟩ = c.found held := by
    refine read_of_ring? ((hrings c.len).trans (if_pos rfl)) ?_
    change (r.vectors.modify (t % count) c.found)[t % count]? = some (c.found held)
    rw [Array.getElem?_modify, if_pos rfl, hheld, Option.map_some]
  refine ⟨held, hheld, hruns.sizes held (Array.mem_of_getElem? hheld), ?_⟩
  unfold lent?
  rw [hn, Option.bind_some, hs']
  simp only [hread]

omit [Cell α] in
/-- the calls before a later one are those before an earlier one, that one, and those in between -/
theorem exists_between {m n : Nat} (hmn : m < n) {c : ScratchCall α} (hm : calls[m]? = some c) :
    ∃ between, calls.take n = calls.take m ++ c :: between := by
  obtain ⟨hlt, rfl⟩ := List.getElem?_eq_some_iff.1 hm
  obtain ⟨k, rfl⟩ := Nat.exists_eq_add_of_lt hmn
  exact ⟨(calls.drop (m + 1)).take k, by
    rw [Nat.add_assoc, List.take_add, List.drop_eq_getElem_cons hlt, List.take_succ_cons]⟩

omit [Cell α] in
theorem turnsBefore_mono {m n : Nat} (h : m ≤ n) (l : Nat) : turnsBefore calls l m ≤ turnsBefore calls l n := by
  have hsublist : (calls.take m).Sublist (calls.take n) := by
    rw [← Nat.min_eq_left h, ← List.take_take]
    exact List.take_sublist m (calls.take n)
  exact hsublist.countP_le

/-- **What a holder leaves stays in the vector** through the turns of the others, whatever is asked for in other
lengths. -/
theorem held_after_cycle (hcount : 0 < count) {m n : Nat} {c : ScratchCall α} (hm : calls[m]? = some c)
    (hn : turnsBefore calls c.len n = turnsBefore calls c.len m + count) {held : Array α}
    (hheld : (ringAfter c.len count (calls.take m)).vectors[turnsBefore calls c.len m % count]? = some held) :
    (ringAfter c.len count (calls.take n)).vectors[turnsBefore calls c.len n % count]? =
      some (c.left (c.found held)) := by
  have hmn : m < n := by
    by_contra hle
    have hmono : turnsBefore calls c.len n ≤ turnsBefore calls c.len m := turnsBefore_mono (Nat.not_lt.1 hle) c.len
    omega
  obtain ⟨between, hsplit⟩ := exists_between hmn hm
  set others := between.filter (·.len = c.len)
  have hothers : ∀ x ∈ others, x.len = c.len := by
    intro x hx
    simpa using (List.mem_filter.1 hx).2
  have hlength : others.length + 1 = count := by
    have hcountP : between.countP (·.len = c.len) = others.length := List.countP_eq_length_filter
    have hturns : turnsBefore calls c.len n = turnsBefore calls c.len m + (others.length + 1) := by
      unfold turnsBefore
      rw [hsplit, List.countP_append, List.countP_cons_of_pos (by simp), hcountP]
    omega
  have hring : ringAfter c.len count (calls.take n) =
      others.foldl Ring.turn ((ringAfter c.len count (calls.take m)).turn c) := by
    unfold ringAfter
    rw [hsplit, List.filter_append, List.filter_cons_of_pos (by simp), List.foldl_append, List.foldl_cons]
  have hruns := runs_ringAfter hcount c.len (calls.take m)
  change Ring.Runs _ _ _ (turnsBefore calls c.len m) at hruns
  have hlater : ∀ j < others.length,
      (turnsBefore calls c.len m + 1 + j) % count ≠ turnsBefore calls c.len m % count := by
    intro j hj
    exact Ring.turn_ne (by omega)
  rw [hn, Nat.add_mod_right, hring, (hruns.turn hcount rfl).getElem?_turns hcount hothers hlater,
    hruns.getElem?_turn hcount, if_pos rfl, hheld, Option.map_some]

/-- **Scratch vectors are lent in turn.** Let vectors be acquired, at least one for each length, and asked for in any
sequence of requests, whose holders may write to what they are lent. A request for a length that is not served is
refused with the lengths that are, and changes nothing. A request for one that is served is lent a vector of that
length. Two requests for one length are lent the same vector exactly if as many requests for that length come before
them modulo the number of vectors, whatever is asked for in other lengths in between. When a vector comes back after all
others had their turn, it has what its holder left there, or zeros on demand. -/
theorem vectors_taken_in_turn (hcount : 0 < count) (hs : acquire b count len len2 = .ok (s, b'))
    (calls : List (ScratchCall α)) :
    (∀ n c, calls[n]? = some c → ¬ (c.len = len ∨ len2 = some c.len ∧ 0 < c.len) →
      (s.after (calls.take n)).request c.len c.reset = .error (.noScratchVector c.len (lengthsFor len len2)) ∧
        s.after (calls.take (n + 1)) = s.after (calls.take n)) ∧
    (∀ n c, calls[n]? = some c → (c.len = len ∨ len2 = some c.len ∧ 0 < c.len) →
      ∃ slot v, s.lent? calls n = some (slot, v) ∧ slot.len = c.len ∧ slot.index < count ∧ v.size = c.len) ∧
    ∀ m n c d slot slot' v v', calls[m]? = some c → calls[n]? = some d → c.len = d.len →
      s.lent? calls m = some (slot, v) → s.lent? calls n = some (slot', v') →
      (slot = slot' ↔ turnsBefore calls c.len m % count = turnsBefore calls c.len n % count) ∧
      (turnsBefore calls c.len n = turnsBefore calls c.len m + count →
        v' = if d.reset then zeros d.len else (c.write.apply v.toVector).toArray) := by
  refine ⟨?_, ?_, ?_⟩
  · intro n c hn hunserved
    exact refused_of_unserved hcount hs hn (mt mem_lengthsFor.1 hunserved)
  · intro n c hn hserved
    obtain ⟨held, -, hsize, hlent⟩ := lent?_served hcount hs hn (mem_lengthsFor.2 hserved)
    refine ⟨_, _, hlent, rfl, Nat.mod_lt _ hcount, ?_⟩
    unfold ScratchCall.found
    split_ifs
    · exact size_zeros c.len
    · exact hsize
  · intro m n c d slot slot' v v' hm hn hlen hlentm hlentn
    have hl : c.len ∈ lengthsFor len len2 := by
      by_contra hunserved
      obtain ⟨hrefused, -⟩ := refused_of_unserved hcount hs hm hunserved
      unfold lent? at hlentm
      rw [hm, Option.bind_some, hrefused] at hlentm
      cases hlentm
    obtain ⟨held, hheld, -, hfirst⟩ := lent?_served hcount hs hm hl
    obtain ⟨held', hheld', -, hsecond⟩ := lent?_served hcount hs hn (hlen ▸ hl)
    rw [← hlen] at hheld' hsecond
    obtain ⟨rfl, rfl⟩ := Prod.mk.inj (Option.some.inj (hfirst.symm.trans hlentm))
    obtain ⟨rfl, rfl⟩ := Prod.mk.inj (Option.some.inj (hsecond.symm.trans hlentn))
    constructor
    · simp only [Slot.mk.injEq, true_and]
    · intro hcycle
      have hback := held_after_cycle hcount hm hcycle hheld
      obtain rfl := Option.some.inj (hback.symm.trans hheld')
      rfl

/-- the first vector of length three is given a seven and the second an eight; in between a request is refused and a
vector of length five is lent -/
def sevenAndEight : List (ScratchCall Int) :=
  [⟨3, false, .cell 0 fun _ => 7⟩, ⟨4, true, .skip⟩, ⟨5, false, .cell 0 fun _ => 5⟩, ⟨3, false, .cell 0 fun _ => 8⟩,
    ⟨3, false, .skip⟩, ⟨3, true, .skip⟩]

/-- of two vectors for each length the first comes back with its seven, and the second, zeroed, without its eight -/
theorem seven_comes_back : ∃ (s : Scratch Int) (b' : Budget),
    acquire (.ofCapacity 1024) 2 3 (some 5) = .ok (s, b') ∧
    s.after (sevenAndEight.take 2) = s.after (sevenAndEight.take 1) ∧
    (∃ slot, s.lent? sevenAndEight 0 = some (slot, #[0, 0, 0]) ∧ s.lent? sevenAndEight 4 = some (slot, #[7, 0, 0])) ∧
    ∃ slot, s.lent? sevenAndEight 3 = some (slot, #[0, 0, 0]) ∧ s.lent? sevenAndEight 5 = some (slot, #[0, 0, 0]) := by
  obtain ⟨s, b', hs, hfirst, hsecond⟩ : ∃ (s : Scratch Int) (b' : Budget),
      acquire (.ofCapacity 1024) 2 3 (some 5) = .ok (s, b') ∧
      s.lent? sevenAndEight 0 = some (⟨3, 0⟩, #[0, 0, 0]) ∧ s.lent? sevenAndEight 3 = some (⟨3, 1⟩, #[0, 0, 0]) :=
    ⟨_, _, rfl, by decide +kernel, by decide +kernel⟩
  obtain ⟨hrefused, hserved, hturns⟩ := vectors_taken_in_turn (by decide) hs sevenAndEight
  refine ⟨s, b', hs, ?_, ⟨⟨3, 0⟩, hfirst, ?_⟩, ⟨⟨3, 1⟩, hsecond, ?_⟩⟩
  · exact (hrefused 1 _ rfl (by decide)).2
  · obtain ⟨slot, v, hlent, -⟩ := hserved 4 _ rfl (by decide)
    obtain ⟨hsame, hback⟩ := hturns 0 4 _ _ _ _ _ _ rfl rfl rfl hfirst hlent
    obtain rfl := hsame.2 (by decide)
    obtain rfl := hback (by decide)
    rw [hlent]
    decide +kernel
  · obtain ⟨slot, v, hlent, -⟩ := hserved 5 _ rfl (by decide)
    obtain ⟨hsame, hback⟩ := hturns 3 5 _ _ _ _ _ _ rfl rfl rfl hsecond hlent
    obtain rfl := hsame.2 (by decide)
    obtain rfl := hback (by decide)
    rw [hlent]
    decide +kernel

end Scratch

end MatrixEngine
