/-
What the document of a block tells.

Two blocks are alike (`Block.Alike r`) if they have one representation with the same shape and layout, and their stored
cells are related by `r` one by one.
- `Block.plain_toJson_eq_iff`: documents are the same exactly if the blocks are alike, cells of one text being related.
- `Block.alike_eq_iff`: blocks with the same cells are the same, once the dictionaries of compressed blocks are cut into
  tuples as wide as their groups, as coding does (`cut_ofDense`).
- `sameText_eq_merged`: floats have one text if they are the same or if neither is finite. So a document tells all
  floats apart but the two infinities and NaN.
-/
import MatrixEngine.Block.Basic
import MatrixEngine.Proofs.Block.Compression
import MatrixEngine.Proofs.Number.FloatText
import MatrixEngine.Proofs.Text.ReadBack

namespace MatrixEngine

variable {α : Type} {r r' : α → α → Prop}

/-! ## Blocks that are alike -/

@[mk_iff] structure Dense.Alike (r : α → α → Prop) (d e : Dense α) : Prop where
  rows : d.rows = e.rows
  cols : d.cols = e.cols
  values : List.Forall₂ r d.values.toList e.values.toList
  nnz : d.nnz = e.nnz

@[mk_iff] structure Sparse.Alike (r : α → α → Prop) (s t : Sparse α) : Prop where
  rows : s.rows = t.rows
  cols : s.cols = t.cols
  starts : s.starts = t.starts
  indexes : s.indexes = t.indexes
  values : List.Forall₂ r s.values.toList t.values.toList

/-- the dictionaries are compared cell by cell, as they are written -/
@[mk_iff] structure ColumnGroup.Alike (r : α → α → Prop) (g k : ColumnGroup α) : Prop where
  cols : g.cols = k.cols
  tuples : List.Forall₂ r g.tuples.flatten.toList k.tuples.flatten.toList
  codes : g.codes = k.codes

@[mk_iff] structure Compressed.Alike (r : α → α → Prop) (c e : Compressed α) : Prop where
  rows : c.rows = e.rows
  cols : c.cols = e.cols
  groups : List.Forall₂ (ColumnGroup.Alike r) c.groups e.groups
  nnz : c.nnz = e.nnz

/-- one representation, the same layout, and cells that are related one by one -/
inductive Block.Alike (r : α → α → Prop) : Block α → Block α → Prop
  | dense {d e : Dense α} (h : d.Alike r e) : Alike r (.dense d) (.dense e)
  | sparse {s t : Sparse α} (h : s.Alike r t) : Alike r (.sparse s) (.sparse t)
  | compressed {c e : Compressed α} (h : c.Alike r e) : Alike r (.compressed c) (.compressed e)

/-! ## Cells that decide -/

/-- the stored cells of a block -/
def Block.held : Block α → List α
  | .dense d => d.values.toList
  | .sparse s => s.values.toList
  | .compressed c => c.groups.flatMap fun g => g.tuples.flatten.toList

theorem forall₂_imp_mem {β γ : Type} {R S : β → γ → Prop} {xs : List β} {ys : List γ} (h : List.Forall₂ R xs ys)
    (himp : ∀ x ∈ xs, ∀ y ∈ ys, R x y → S x y) : List.Forall₂ S xs ys := by
  induction h with
  | nil => exact .nil
  | cons hxy _ ih =>
    exact .cons (himp _ List.mem_cons_self _ List.mem_cons_self hxy)
      (ih fun x hx y hy => himp x (List.mem_cons_of_mem _ hx) y (List.mem_cons_of_mem _ hy))

theorem Dense.Alike.imp {d e : Dense α} (h : d.Alike r e)
    (himp : ∀ v ∈ d.values.toList, ∀ w ∈ e.values.toList, r v w → r' v w) : d.Alike r' e :=
  { h with values := forall₂_imp_mem h.values himp }

theorem Block.Alike.imp {b c : Block α} (h : b.Alike r c) (himp : ∀ v ∈ b.held, ∀ w ∈ c.held, r v w → r' v w) :
    b.Alike r' c := by
  cases h with
  | dense h => exact .dense (h.imp himp)
  | sparse h => exact .sparse { h with values := forall₂_imp_mem h.values himp }
  | compressed h =>
    refine .compressed { h with groups := forall₂_imp_mem h.groups fun g hg k hk hgroup => ?_ }
    exact { hgroup with
      tuples := forall₂_imp_mem hgroup.tuples fun v hv w hw =>
        himp v (List.mem_flatMap.2 ⟨g, hg, hv⟩) w (List.mem_flatMap.2 ⟨k, hk, hw⟩) }

/-! ## Same cells -/

theorem Dense.alike_eq_iff {d e : Dense α} : d.Alike Eq e ↔ d = e := by
  constructor
  · obtain ⟨rows, cols, values, nnz⟩ := d
    obtain ⟨rows', cols', values', nnz'⟩ := e
    rintro ⟨hrows, hcols, hvalues, hnnz⟩
    obtain rfl : rows = rows' := hrows
    obtain rfl : cols = cols' := hcols
    obtain rfl : nnz = nnz' := hnnz
    rw [List.forall₂_eq_eq_eq, Array.toList_inj] at hvalues
    exact congrArg (Dense.mk rows cols · nnz) hvalues
  · rintro rfl
    exact ⟨rfl, rfl, List.forall₂_refl _, rfl⟩

theorem Sparse.alike_eq_iff {s t : Sparse α} : s.Alike Eq t ↔ s = t := by
  constructor
  · obtain ⟨rows, cols, starts, indexes, values⟩ := s
    obtain ⟨rows', cols', starts', indexes', values'⟩ := t
    rintro ⟨hrows, hcols, hstarts, hindexes, hvalues⟩
    obtain rfl : rows = rows' := hrows
    obtain rfl : cols = cols' := hcols
    obtain rfl : starts = starts' := hstarts
    obtain rfl : indexes = indexes' := hindexes
    rw [List.forall₂_eq_eq_eq, Array.toList_inj] at hvalues
    exact congrArg (Sparse.mk rows cols starts indexes) hvalues
  · rintro rfl
    exact ⟨rfl, rfl, rfl, rfl, List.forall₂_refl _⟩

/-- a group has columns, and its tuples are as wide as it is -/
structure ColumnGroup.Cut (g : ColumnGroup α) : Prop where
  wide : 0 < g.cols.size
  even : ∀ t ∈ g.tuples, t.size = g.cols.size

/-- all groups of a compressed block are cut -/
def Block.Cut : Block α → Prop
  | .compressed c => ∀ g ∈ c.groups, g.Cut
  | _ => True

/-- tuples of one width are told by their cells -/
theorem eq_of_flatten_eq {n : Nat} (hn : 0 < n) {xs ys : List (List α)} (hx : ∀ x ∈ xs, x.length = n)
    (hy : ∀ y ∈ ys, y.length = n) (h : xs.flatten = ys.flatten) : xs = ys := by
  have hlength : ∀ {zs : List (List α)}, (∀ z ∈ zs, z.length = n) → zs.map List.length = List.replicate zs.length n :=
    fun hz => List.eq_replicate_iff.2 ⟨List.length_map _, by simpa using hz⟩
  have hsize := congrArg List.length h
  rw [List.length_flatten, List.length_flatten, hlength hx, hlength hy, List.sum_replicate, List.sum_replicate] at hsize
  rw [List.eq_iff_flatten_eq, hlength hx, hlength hy, Nat.eq_of_mul_eq_mul_right hn hsize]
  exact ⟨h, rfl⟩

theorem ColumnGroup.alike_eq_iff {g k : ColumnGroup α} (hg : g.Cut) (hk : k.Cut) : g.Alike Eq k ↔ g = k := by
  constructor
  · obtain ⟨cols, tuples, codes⟩ := g
    obtain ⟨cols', tuples', codes'⟩ := k
    rintro ⟨hcols, htuples, hcodes⟩
    obtain rfl : cols = cols' := hcols
    obtain rfl : codes = codes' := hcodes
    rw [List.forall₂_eq_eq_eq, Array.toList_flatten, Array.toList_flatten] at htuples
    have heven : ∀ {ts : Array (Array α)}, (∀ t ∈ ts, t.size = cols.size) →
        ∀ x ∈ ts.toList.map Array.toList, x.length = cols.size := by
      intro ts hts x hx
      obtain ⟨t, ht, rfl⟩ := List.mem_map.1 hx
      exact hts t (Array.mem_toList_iff.1 ht)
    have hlists := eq_of_flatten_eq hg.wide (heven hg.even) (heven hk.even) htuples
    rw [List.map_inj_right fun _ _ => Array.toList_inj.1, Array.toList_inj] at hlists
    exact congrArg (ColumnGroup.mk cols · codes) hlists
  · rintro rfl
    exact ⟨rfl, List.forall₂_refl _, rfl⟩

/-- **Blocks with the same shape, layout and cells are the same.** -/
theorem Block.alike_eq_iff {b c : Block α} (hb : b.Cut) (hc : c.Cut) : b.Alike Eq c ↔ b = c := by
  constructor
  · rintro (h | h | h)
    · rw [Dense.alike_eq_iff.1 h]
    · rw [Sparse.alike_eq_iff.1 h]
    · rename_i c e
      have hgroups := forall₂_imp_mem h.groups fun g hg k hk => (ColumnGroup.alike_eq_iff (hb g hg) (hc k hk)).1
      rw [List.forall₂_eq_eq_eq] at hgroups
      obtain ⟨rows, cols, groups, nnz⟩ := c
      obtain ⟨rows', cols', groups', nnz'⟩ := e
      obtain rfl : rows = rows' := h.rows
      obtain rfl : cols = cols' := h.cols
      obtain rfl : nnz = nnz' := h.nnz
      exact congrArg (fun gs => Block.compressed ⟨rows, cols, gs, nnz⟩) hgroups
  · rintro rfl
    cases b with
    | dense d => exact .dense (Dense.alike_eq_iff.2 rfl)
    | sparse s => exact .sparse (Sparse.alike_eq_iff.2 rfl)
    | compressed c =>
      have hgroups : List.Forall₂ (ColumnGroup.Alike Eq) c.groups c.groups :=
        List.forall₂_same.2 fun g hg => (ColumnGroup.alike_eq_iff (hb g hg) (hb g hg)).2 rfl
      exact .compressed ⟨rfl, rfl, hgroups, rfl⟩

section Coding

variable [Cell α] [DecidableEq α]

theorem ColumnGroup.cut_encode {d : Dense α} {cols : Array Nat} (hcols : 0 < cols.size) {g : ColumnGroup α}
    (h : encode d cols = .ok g) : g.Cut := by
  rw [encode_eq] at h
  split_ifs at h
  obtain rfl := Except.ok.inj h
  exact ⟨hcols, fun t ht => size_of_mem_rowTuples (List.mem_eraseDups.1 (List.mem_toArray.1 ht))⟩

/-- a compressed block that codes a dense one is cut -/
theorem Block.cut_ofDense {d : Dense α} {width : Nat} {c : Compressed α} (h : Compressed.ofDense d width = .ok c) :
    (Block.compressed c).Cut := by
  obtain ⟨hwidth, -, -, -, hgroups⟩ := Compressed.ofDense_encoded h
  have hcut : List.Forall₂ (fun g _ => g.Cut ∧ True) c.groups (Compressed.columnRuns d.cols width) :=
    List.Forall₂.flip (forall₂_imp_mem hgroups fun run hrun g _ hcoded =>
      ⟨ColumnGroup.cut_encode (Compressed.size_pos_of_mem_columnRuns hwidth hrun) hcoded, trivial⟩)
  exact ((List.forall₂_and_left _ _).1 hcut).1

end Coding

/-! ## Documents -/

open Json

section Text

variable [CellText α]

/-- cells of one text -/
def SameText (v w : α) : Prop := CellText.text v = CellText.text w

/-- every cell is written as a number that is read back, or as `null` -/
class ReadableCells (α : Type) [CellText α] : Prop where
  text (v : α) : CellText.text v = "null" ∨ NumberText (CellText.text v)

theorem plain_number_eq_iff {s t : String} : (number s).plain = (number t).plain ↔ s = t := by
  rw [plain, plain]
  split_ifs with hs ht ht
  · simp [hs, ht]
  · simp [hs, Ne.symm ht]
  · simp [hs, ht]
  · simp

theorem plain_array_eq_iff {β : Type} {f : β → Json} {xs ys : List β} :
    (array (xs.map f)).plain = (array (ys.map f)).plain ↔
      List.Forall₂ (fun x y => (f x).plain = (f y).plain) xs ys := by
  rw [plain_array, plain_array, array.injEq, List.map_map, List.map_map, ← List.forall₂_eq_eq_eq,
    List.forall₂_map_left_iff, List.forall₂_map_right_iff]
  rfl

theorem plain_cellsJson_eq_iff {vs ws : Array α} :
    (cellsJson vs).plain = (cellsJson ws).plain ↔ List.Forall₂ SameText vs.toList ws.toList := by
  rw [cellsJson, cellsJson, plain_array_eq_iff]
  simp only [plain_number_eq_iff]
  rfl

theorem plain_indexesJson_eq_iff {ns ms : Array Nat} : (indexesJson ns).plain = (indexesJson ms).plain ↔ ns = ms := by
  rw [indexesJson, indexesJson, plain_array_eq_iff]
  simp only [plain_nat, nat_inj, List.forall₂_eq_eq_eq, Array.toList_inj]

theorem Dense.plain_toJson_eq_iff {d e : Dense α} : d.toJson.plain = e.toJson.plain ↔ d.Alike SameText e := by
  simp only [toJson, plain_object, List.map_cons, List.map_nil, object.injEq, List.cons.injEq, Prod.mk.injEq, plain_nat,
    nat_inj, plain_cellsJson_eq_iff, true_and, and_true, Dense.alike_iff]

theorem Sparse.plain_toJson_eq_iff {s t : Sparse α} : s.toJson.plain = t.toJson.plain ↔ s.Alike SameText t := by
  simp only [toJson, plain_object, List.map_cons, List.map_nil, object.injEq, List.cons.injEq, Prod.mk.injEq, plain_nat,
    nat_inj, plain_cellsJson_eq_iff, plain_indexesJson_eq_iff, true_and, and_true, Sparse.alike_iff]

theorem ColumnGroup.plain_toJson_eq_iff {g k : ColumnGroup α} :
    g.toJson.plain = k.toJson.plain ↔ g.Alike SameText k := by
  simp only [toJson, plain_object, List.map_cons, List.map_nil, object.injEq, List.cons.injEq, Prod.mk.injEq,
    plain_cellsJson_eq_iff, plain_indexesJson_eq_iff, true_and, and_true, ColumnGroup.alike_iff]

theorem Compressed.plain_toJson_eq_iff {c e : Compressed α} : c.toJson.plain = e.toJson.plain ↔ c.Alike SameText e := by
  simp only [toJson, plain_object, List.map_cons, List.map_nil, object.injEq, List.cons.injEq, Prod.mk.injEq, plain_nat,
    nat_inj, plain_array_eq_iff, ColumnGroup.plain_toJson_eq_iff, true_and, and_true, Compressed.alike_iff]

/-- a document with one member tells the member from its name and its content -/
theorem plain_singleton_eq_iff {k l : String} {j j' : Json} :
    (object [(k, j)]).plain = (object [(l, j')]).plain ↔ k = l ∧ j.plain = j'.plain := by
  simp [plain_object]

/-- **Documents of blocks are the same** exactly if the blocks are, up to cells of one text. -/
theorem Block.plain_toJson_eq_iff {b c : Block α} : b.toJson.plain = c.toJson.plain ↔ b.Alike SameText c := by
  cases b <;> cases c <;> rw [toJson, toJson, plain_singleton_eq_iff]
  case dense.dense =>
    exact ⟨fun h => .dense (Dense.plain_toJson_eq_iff.1 h.2),
      fun | .dense h => ⟨rfl, Dense.plain_toJson_eq_iff.2 h⟩⟩
  case sparse.sparse =>
    exact ⟨fun h => .sparse (Sparse.plain_toJson_eq_iff.1 h.2),
      fun | .sparse h => ⟨rfl, Sparse.plain_toJson_eq_iff.2 h⟩⟩
  case compressed.compressed =>
    exact ⟨fun h => .compressed (Compressed.plain_toJson_eq_iff.1 h.2),
      fun | .compressed h => ⟨rfl, Compressed.plain_toJson_eq_iff.2 h⟩⟩
  -- two representations have two names
  all_goals exact ⟨fun h => absurd h.1 (by decide), fun h => by cases h⟩

/-! What is written is read back. -/

variable [ReadableCells α]

theorem readable_cellsJson (vs : Array α) : (cellsJson vs).Readable := by
  rw [cellsJson, readable_array, List.forall_mem_map]
  exact fun v _ => ReadableCells.text v

omit [CellText α] [ReadableCells α] in
theorem readable_indexesJson (ns : Array Nat) : (indexesJson ns).Readable := by
  rw [indexesJson, readable_array, List.forall_mem_map]
  exact fun n _ => readable_nat n

theorem Dense.readable_toJson (d : Dense α) : d.toJson.Readable := by
  simp [toJson, readable_object, readable_cellsJson]

theorem Sparse.readable_toJson (s : Sparse α) : s.toJson.Readable := by
  simp [toJson, readable_object, readable_cellsJson, readable_indexesJson]

theorem Compressed.readable_toJson (c : Compressed α) : c.toJson.Readable := by
  simp [toJson, readable_object, readable_array, ColumnGroup.toJson, readable_cellsJson, readable_indexesJson]

theorem Block.readable_toJson (b : Block α) : b.toJson.Readable := by
  cases b <;>
    simp [toJson, readable_object, Dense.readable_toJson, Sparse.readable_toJson, Compressed.readable_toJson]

end Text

/-! ## Floats -/

instance : ReadableCells Float where
  text v := by
    cases hv : v.isFinite
    · exact .inl (floatText_of_not_finite hv)
    · exact .inr (numberText_floatText hv)

/-- floats that are the same, or both of them infinite or NaN -/
def Merged (v w : Float) : Prop := v = w ∨ v.isFinite = false ∧ w.isFinite = false

/-- **Floats have one text** if they are the same or if neither is finite. -/
theorem sameText_eq_merged : SameText = Merged := by
  ext v w
  exact floatText_eq_iff

/-- without infinities, floats of one text are the same -/
theorem Merged.eq {v w : Float} (h : Merged v w) (hv : v.isInf = false) (hw : w.isInf = false) : v = w := by
  rcases h with rfl | ⟨hv', hw'⟩
  · rfl
  · exact eq_of_nan hv' hv hw' hw

end MatrixEngine
