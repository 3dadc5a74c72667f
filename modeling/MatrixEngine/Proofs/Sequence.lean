/-
Steps that may fail, taken one after the other: `List.mapM` in `Except`, and `EStateM`.

A sequence succeeds if every step does and then has the results in order (`mapM_ok_iff`); else it fails as its first
failing step does (`mapM_error_iff`). Cutting a sequence into parts changes neither (`mapM_flatten`). Results side by side
are lists that are related elementwise, or pairs that are looked up by their keys (`lookup_eq_none_iff`).

A step of a state has a result or fails (`outcome`), and either way leaves a state (`ending`).
-/
import Mathlib.Tactic

namespace MatrixEngine.Sequence

variable {ε ι β : Type}

theorem bind_ok {e : Except ε ι} {a : ι} (h : e = .ok a) (f : ι → Except ε β) : (e >>= f) = f a := by
  rw [h]
  rfl

theorem bind_error {e : Except ε ι} {x : ε} (h : e = .error x) (f : ι → Except ε β) : (e >>= f) = .error x := by
  rw [h]
  rfl

theorem mapM_cons_ok {f : ι → Except ε β} {a : ι} {l : List ι} {b : β} (h : f a = .ok b) :
    (a :: l).mapM f = (l.mapM f).map (b :: ·) := by
  rw [List.mapM_cons, h]
  cases l.mapM f <;> rfl

theorem mapM_cons_error {f : ι → Except ε β} {a : ι} {l : List ι} {e : ε} (h : f a = .error e) :
    (a :: l).mapM f = .error e := by
  rw [List.mapM_cons, h]
  rfl

/-- a sequence succeeds exactly with the results of its steps in order -/
theorem mapM_ok_iff {f : ι → Except ε β} {l : List ι} {bs : List β} :
    l.mapM f = .ok bs ↔ List.Forall₂ (fun a b => f a = .ok b) l bs := by
  induction l generalizing bs with
  | nil => simp [pure, Except.pure, eq_comm]
  | cons a l ih =>
    cases hf : f a with
    | error e => cases bs <;> simp [mapM_cons_error hf, hf]
    | ok b =>
      rw [mapM_cons_ok hf]
      constructor
      · intro h
        cases hl : l.mapM f with
        | error e => simp [hl, Except.map] at h
        | ok rest =>
          simp only [hl, Except.map, Except.ok.injEq] at h
          exact h ▸ .cons hf (ih.1 hl)
      · rintro (_ | ⟨hb, hrest⟩)
        obtain rfl := Except.ok.inj (hf.symm.trans hb)
        rw [ih.2 hrest]
        rfl

theorem exists_of_mapM_ok {f : ι → Except ε β} {l : List ι} {bs : List β} (h : l.mapM f = .ok bs) {a : ι}
    (ha : a ∈ l) : ∃ b, f a = .ok b := by
  induction mapM_ok_iff.1 h with
  | nil => cases ha
  | cons hb hrest ih =>
    rcases List.mem_cons.1 ha with rfl | ha
    · exact ⟨_, hb⟩
    · exact ih (mapM_ok_iff.2 hrest) ha

/-- a sequence fails exactly as its first failing step does -/
theorem mapM_error_iff {f : ι → Except ε β} {l : List ι} {e : ε} :
    l.mapM f = .error e ↔ ∃ before a after, l = before ++ a :: after ∧ (∀ x ∈ before, ∃ b, f x = .ok b) ∧
      f a = .error e := by
  induction l with
  | nil => simp [pure, Except.pure]
  | cons a l ih =>
    cases hf : f a with
    | error e' =>
      rw [mapM_cons_error hf]
      constructor
      · intro h
        obtain rfl := Except.error.inj h
        exact ⟨[], a, l, rfl, by simp, hf⟩
      · rintro ⟨before, a', after, hl, hok, he⟩
        cases before with
        | nil =>
          obtain ⟨rfl, -⟩ := List.cons.inj hl
          rw [Except.error.inj (hf.symm.trans he)]
        | cons c before =>
          obtain ⟨rfl, -⟩ := List.cons.inj hl
          obtain ⟨b, hb⟩ := hok _ List.mem_cons_self
          rw [hf] at hb
          cases hb
    | ok b =>
      rw [mapM_cons_ok hf]
      constructor
      · intro h
        cases hl : l.mapM f with
        | ok rest => simp [hl, Except.map] at h
        | error e' =>
          simp only [hl, Except.map, Except.error.injEq] at h
          obtain ⟨before, a', after, rfl, hok, he⟩ := ih.1 (hl.trans (by rw [h]))
          refine ⟨a :: before, a', after, rfl, ?_, he⟩
          rintro x hx
          rcases List.mem_cons.1 hx with rfl | hx
          · exact ⟨b, hf⟩
          · exact hok x hx
      · rintro ⟨before, a', after, hl, hok, he⟩
        cases before with
        | nil =>
          obtain ⟨rfl, -⟩ := List.cons.inj hl
          rw [hf] at he
          cases he
        | cons c before =>
          obtain ⟨rfl, rfl⟩ := List.cons.inj hl
          rw [ih.2 ⟨before, a', after, rfl, fun x hx => hok x (List.mem_cons_of_mem _ hx), he⟩]
          rfl

/-- a sequence over numbers fails exactly as at the least number at which a step does -/
theorem mapM_range_error_iff {f : Nat → Except ε β} {n : Nat} {e : ε} :
    (List.range n).mapM f = .error e ↔ ∃ i < n, f i = .error e ∧ ∀ j < i, ∃ b, f j = .ok b := by
  rw [mapM_error_iff]
  constructor
  · rintro ⟨before, a, after, hl, hok, he⟩
    have hget : ∀ j : Nat, (List.range n)[j]? = (before ++ a :: after)[j]? := fun j => by rw [hl]
    have hlen : n = before.length + (after.length + 1) := by simpa using congrArg List.length hl
    have hbefore : before = List.range before.length := by
      have := congrArg (List.take before.length) hl
      rwa [List.take_left, List.take_range, Nat.min_eq_left (by omega), eq_comm] at this
    have ha : a = before.length := by
      have := hget before.length
      rw [List.getElem?_range (by omega), List.getElem?_append_right le_rfl, Nat.sub_self] at this
      exact (Option.some.inj this).symm
    refine ⟨before.length, by omega, ha ▸ he, fun j hj => hok j ?_⟩
    rw [hbefore]
    exact List.mem_range.2 hj
  · rintro ⟨i, hi, he, hok⟩
    refine ⟨List.range i, i, List.range' (i + 1) (n - i - 1), ?_, fun j hj => hok j (List.mem_range.1 hj), he⟩
    rw [← List.range'_succ, List.range_eq_range', List.range_eq_range']
    have hsplit := List.range'_append_1 (s := 0) (m := i) (n := n - i - 1 + 1)
    rw [Nat.zero_add, show i + (n - i - 1 + 1) = n by omega] at hsplit
    exact hsplit.symm

theorem mapM_flatten (f : ι → Except ε β) (parts : List (List ι)) :
    parts.flatten.mapM f = (parts.mapM (List.mapM f)).map List.flatten := by
  induction parts with
  | nil => rfl
  | cons part parts ih =>
    rw [List.flatten_cons, List.mapM_append, List.mapM_cons, ih]
    cases part.mapM f with
    | error e => rfl
    | ok bs => cases parts.mapM (List.mapM f) <;> rfl

theorem mapM_congr {f g : ι → Except ε β} {l : List ι} (h : ∀ a ∈ l, f a = g a) : l.mapM f = l.mapM g := by
  induction l with
  | nil => rfl
  | cons a l ih =>
    rw [List.mapM_cons, List.mapM_cons, h a List.mem_cons_self, ih fun b hb => h b (List.mem_cons_of_mem a hb)]

theorem mapM_map_result {γ : Type} (f : ι → Except ε β) (g : β → γ) (l : List ι) :
    l.mapM (fun a => (f a).map g) = (l.mapM f).map (List.map g) := by
  induction l with
  | nil => rfl
  | cons a l ih =>
    rw [List.mapM_cons, List.mapM_cons, ih]
    cases f a with
    | error e => rfl
    | ok b => cases l.mapM f <;> rfl

/-! ## Lists related element by element -/

theorem exists_left {R : ι → β → Prop} {xs : List ι} {ys : List β} (h : List.Forall₂ R xs ys) {y : β} (hy : y ∈ ys) :
    ∃ x ∈ xs, R x y := by
  induction h with
  | nil => cases hy
  | @cons a b _ _ hab _ ih =>
    rcases List.mem_cons.1 hy with rfl | hy
    · exact ⟨a, List.mem_cons_self, hab⟩
    · obtain ⟨x, hx, hxy⟩ := ih hy
      exact ⟨x, List.mem_cons_of_mem a hx, hxy⟩

theorem exists_right {R : ι → β → Prop} {xs : List ι} {ys : List β} (h : List.Forall₂ R xs ys) {x : ι} (hx : x ∈ xs) :
    ∃ y ∈ ys, R x y := by
  obtain ⟨y, hy, hxy⟩ := exists_left h.flip hx
  exact ⟨y, hy, hxy⟩

/-- what holds of each two elements of a list in their order carries over to a list that is related to it -/
theorem pairwise_of_forall₂ {R : ι → β → Prop} {S : ι → ι → Prop} {T : β → β → Prop} {xs : List ι}
    {ys : List β} (h : List.Forall₂ R xs ys) (hS : xs.Pairwise S)
    (hT : ∀ {x x' y y'}, x ∈ xs → x' ∈ xs → S x x' → R x y → R x' y' → T y y') : ys.Pairwise T := by
  induction h with
  | nil => exact .nil
  | @cons x y xs ys hxy hrest ih =>
    obtain ⟨hfirst, hS⟩ := List.pairwise_cons.1 hS
    refine List.pairwise_cons.2 ⟨fun y' hy' => ?_, ih hS fun hx hx' => hT (.tail _ hx) (.tail _ hx')⟩
    obtain ⟨x', hx', hxy'⟩ := exists_left hrest hy'
    exact hT List.mem_cons_self (List.mem_cons_of_mem _ hx') (hfirst x' hx') hxy hxy'

theorem forall₂_comp {γ : Type} {R : ι → β → Prop} {S : β → γ → Prop} {T : ι → γ → Prop} {xs : List ι} {ys : List β}
    {zs : List γ} (h : List.Forall₂ R xs ys) (h' : List.Forall₂ S ys zs) (hT : ∀ {x y z}, R x y → S y z → T x z) :
    List.Forall₂ T xs zs := by
  induction h generalizing zs with
  | nil =>
    cases h'
    exact .nil
  | cons hxy _ ih =>
    cases h' with
    | cons hyz hrest => exact .cons (hT hxy hyz) (ih hrest)

/-! ## Lists of pairs -/

theorem lookup_eq_none_iff {κ : Type} [BEq κ] [LawfulBEq κ] {l : List (κ × β)} {k : κ} :
    l.lookup k = none ↔ k ∉ l.map Prod.fst := by
  rw [List.lookup_eq_none_iff, List.mem_map]
  constructor
  · rintro h ⟨p, hp, rfl⟩
    simpa using h p hp
  · intro h p hp
    rw [bne_iff_ne]
    rintro rfl
    exact h ⟨p, hp, rfl⟩

end MatrixEngine.Sequence

namespace MatrixEngine

/-! ## Steps of a state -/

variable {ε σ β γ : Type} {m : EStateM ε σ β} {f : β → EStateM ε σ γ} {s s' s'' : σ}

/-- the result of a step, or why it fails -/
def outcome (r : EStateM.Result ε σ β) : Except ε β :=
  match r with
  | .ok b _ => .ok b
  | .error e _ => .error e

/-- the state that a step leaves, whether it succeeds or fails -/
def ending (r : EStateM.Result ε σ β) : σ :=
  match r with
  | .ok _ s => s
  | .error _ s => s

/-- a step that comes to `r` and leaves `s` -/
def ended (r : Except ε β) (s : σ) : EStateM.Result ε σ β :=
  match r with
  | .ok b => .ok b s
  | .error e => .error e s

@[simp] theorem ending_ok (b : β) (s : σ) : ending (.ok b s : EStateM.Result ε σ β) = s := rfl

@[simp] theorem ending_error (e : ε) (s : σ) : ending (.error e s : EStateM.Result ε σ β) = s := rfl

@[simp] theorem ending_ended (r : Except ε β) (s : σ) : ending (ended r s) = s := by
  cases r <;> rfl

@[simp] theorem outcome_ended (r : Except ε β) (s : σ) : outcome (ended r s) = r := by
  cases r <;> rfl

theorem bind_apply (m : EStateM ε σ β) (f : β → EStateM ε σ γ) (s : σ) : (m >>= f) s =
    match m s with
    | .ok b s' => f b s'
    | .error e s' => .error e s' := by
  change (m >>= f).run s = _
  rw [EStateM.run_bind, EStateM.run]
  cases m s <;> rfl

theorem step_ok {b : β} (h : m s = .ok b s') : (m >>= f) s = f b s' := by
  rw [bind_apply, h]

theorem step_error {e : ε} (h : m s = .error e s') : (m >>= f) s = .error e s' := by
  rw [bind_apply, h]

theorem step_ok_cases {c : γ} (h : (m >>= f) s = .ok c s'') : ∃ b s', m s = .ok b s' ∧ f b s' = .ok c s'' := by
  cases hm : m s with
  | error e s' =>
    rw [step_error hm] at h
    cases h
  | ok b s' =>
    rw [step_ok hm] at h
    exact ⟨b, s', rfl, h⟩

theorem ending_map (g : β → γ) (m : EStateM ε σ β) (s : σ) : ending ((g <$> m) s) = ending (m s) := by
  change ending (EStateM.map g m s) = _
  unfold EStateM.map
  cases m s <;> rfl

/-- what relates the states around each of two steps relates those around both -/
theorem ending_bind {R : σ → σ → Prop} (htrans : ∀ {s₁ s₂ s₃}, R s₁ s₂ → R s₂ s₃ → R s₁ s₃)
    (hm : R s (ending (m s))) (hf : ∀ b s', m s = .ok b s' → R s s' → R s' (ending (f b s'))) :
    R s (ending ((m >>= f) s)) := by
  cases hrun : m s with
  | error e s' =>
    rw [hrun, ending_error] at hm
    rw [step_error hrun]
    exact hm
  | ok b s' =>
    rw [hrun, ending_ok] at hm
    rw [step_ok hrun]
    exact htrans hm (hf b s' hrun hm)

end MatrixEngine
