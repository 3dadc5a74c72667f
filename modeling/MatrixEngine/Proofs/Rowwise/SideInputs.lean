/-
Side inputs: however a block is represented and whether or not it is turned over, all ways of reading it give the cells
of one matrix.

A block that is turned over as a side input is the side input turned over (`ofBlock_true`), so the three representations
and the two orientations come down to two kinds of side inputs (`Sound`) and one lemma on turning each over.
- `Sound.presents`: a dense side input with all its cells, or a sparse one in a sound layout, reads alike everywhere.
- `Sound.get?_transpose`: turned over it has its cells at the turned places.
- `Made.get?_ofBlock`: a block that is not turned over keeps its cells, also where it is decoded.
- `side_inputs_present`: what an operator is handed for the blocks beside its primary one.
-/
import MatrixEngine.Proofs.Block.Turning
import MatrixEngine.Proofs.Rowwise.Representations

namespace MatrixEngine

open Cell

variable {α : Type} [Cell α]

def Grid.row (a : Grid α) (i : Nat) : List α := (List.range a.cols).map (a.cell i)

def Grid.transposed (a : Grid α) : Grid α := ⟨a.cols, a.rows, fun i j => a.cell j i⟩

/-- the entries of a row written over zeros are the cells of the row -/
theorem Sparse.LaidOut.foldl_rowEntries {s : Sparse α} (h : s.LaidOut) {i : Nat} (hi : i < s.rows) :
    ((s.rowEntries i).foldl (fun out e => out.setIfInBounds e.1 e.2) (zeros s.cols)).toList =
      (List.range s.cols).map (s.cell i) := by
  have hagree : ∀ e ∈ s.rowEntries i, e.2 = s.cell i e.1 := by
    rintro ⟨j, v⟩ he
    rw [cell, h.get?_of_entry hi he, Option.getD_some]
  have hsize : ((s.rowEntries i).foldl (fun out e => out.setIfInBounds e.1 e.2) (zeros s.cols)).size = s.cols := by
    rw [size_foldl_set, size_zeros]
  refine List.ext_getElem? fun j => ?_
  rw [Array.getElem?_toList, List.getElem?_map]
  rcases Nat.lt_or_ge j s.cols with hj | hj
  · rw [getElem?_foldl_set hagree (by rwa [size_zeros]), List.getElem?_range hj, Option.map_some]
    split_ifs with hmem
    · rfl
    · have hnone : j ∉ s.rowIndexes i := by
        intro hentry
        obtain ⟨v, hv⟩ := h.mem_rowIndexes_iff.1 hentry
        exact hmem (List.mem_map_of_mem hv)
      rw [cell, h.get?_of_no_entry hi hnone, Option.getD_some]
      simp [zeros, hj]
  · rw [Array.getElem?_eq_none (by omega), List.getElem?_eq_none (by simpa using hj)]
    rfl

namespace SideInput

variable {s : SideInput α} {a : Grid α}

/-- all ways of reading a side input give the cells of a matrix: one by one, as a row written over a buffer of its
length, and, where they are to be had, as a row of the buffer and as the whole buffer -/
structure Presents (s : SideInput α) (a : Grid α) : Prop where
  rows : s.rows = a.rows
  cols : s.cols = a.cols
  cells : ∀ i < a.rows, ∀ j < a.cols, s.get? i j = some (a.cell i j)
  rowInto : ∀ i < a.rows, ∀ buffer : Array α, buffer.size = a.cols → s.rowInto? i buffer = some (a.row i).toArray
  denseRow : ∀ i < a.rows, ∀ row, s.denseRow? i = some row → row = some (a.row i).toArray
  denseValues : ∀ values, s.denseValues? = some values → values.size = a.rows * a.cols ∧
    ∀ i < a.rows, ∀ j < a.cols, values[i * a.cols + j]? = some (a.cell i j)

/-- the matrix that a side input stands for, read cell by cell -/
def grid (s : SideInput α) : Grid α := ⟨s.rows, s.cols, fun i j => (s.get? i j).getD zero⟩

theorem Presents.congr {b : Grid α} (h : s.Presents a) (hrows : a.rows = b.rows) (hcols : a.cols = b.cols)
    (hcell : ∀ i < a.rows, ∀ j < a.cols, a.cell i j = b.cell i j) : s.Presents b := by
  have hrow : ∀ i < a.rows, a.row i = b.row i := by
    intro i hi
    unfold Grid.row
    rw [← hcols]
    exact List.map_congr_left fun j hj => hcell i hi j (List.mem_range.1 hj)
  constructor
  · exact h.rows.trans hrows
  · exact h.cols.trans hcols
  · intro i hi j hj
    rw [← hrows] at hi
    rw [← hcols] at hj
    rw [h.cells i hi j hj, hcell i hi j hj]
  · intro i hi buffer hbuffer
    rw [← hrows] at hi
    rw [← hcols] at hbuffer
    rw [h.rowInto i hi buffer hbuffer, hrow i hi]
  · intro i hi row hread
    rw [← hrows] at hi
    rw [h.denseRow i hi row hread, hrow i hi]
  · intro values hvalues
    obtain ⟨hsize, hcells⟩ := h.denseValues values hvalues
    rw [hrows, hcols] at hsize
    refine ⟨hsize, fun i hi j hj => ?_⟩
    rw [← hrows] at hi
    rw [← hcols] at hj
    rw [← hcols, hcells i hi j hj, hcell i hi j hj]

/-! ## Dense and sparse side inputs -/

/-- a dense side input has all its cells; a sparse one is laid out soundly, and its rows own all entries -/
def Sound : SideInput α → Prop
  | dense d => d.Sized
  | sparse s => s.LaidOut ∧ s.pos 0 = 0

theorem presents_dense {d : Dense α} (h : d.Sized) : (dense d).Presents (dense d).grid := by
  have hget : ∀ i < d.rows, ∀ j < d.cols, d.get? i j = some ((d.get? i j).getD zero) := by
    intro i hi j hj
    rw [h.get?_eq hi hj, Option.getD_some]
  have hrow : ∀ i < d.rows, d.row? i = some ((dense d).grid.row i).toArray := by
    intro i hi
    have hcells : d.row i = ((dense d).grid.row i).toArray := Array.toList_inj.1 (h.toList_row hi)
    rw [Dense.row?, if_pos (h.full.row_end_le hi), hcells]
  constructor
  · rfl
  · rfl
  · exact hget
  · intro i hi buffer hbuffer
    have hsize : ((dense d).grid.row i).toArray.size = buffer.size := by
      rw [hbuffer]
      simp [Grid.row]
    simp only [rowInto?, hrow i hi, Option.filter_some, hsize, beq_self_eq_true, if_true]
  · intro i hi row hread
    obtain rfl := Option.some.inj hread
    exact hrow i hi
  · intro values hvalues
    obtain rfl := Option.some.inj hvalues
    exact ⟨h, hget⟩

/-- a sparse side input is read off its entries: a row is cleared and then overwritten where the row has entries -/
theorem presents_sparse {s : Sparse α} (h : s.LaidOut) : (sparse s).Presents (sparse s).grid := by
  have hget : ∀ i < s.rows, ∀ j < s.cols, s.get? i j = some ((s.get? i j).getD zero) := by
    intro i hi j _
    rw [h.get?_eq hi, Option.getD_some]
  constructor
  · rfl
  · rfl
  · exact hget
  · intro i hi buffer hbuffer
    have hi' : i < s.rows := hi
    have hsize : buffer.size = s.cols := hbuffer
    have hrow : s.row? i = some (s.rowValues i, s.rowIndexes i) := by
      rw [Sparse.row?, if_pos (by rw [h.startCount]; omega)]
    have hfits : ((s.rowEntries i).all fun e => decide (e.1 < buffer.size)) = true := by
      rw [List.all_eq_true]
      rintro ⟨j, v⟩ he
      have hj := h.column_lt (h.mem_rowIndexes_iff.2 ⟨v, he⟩)
      simpa [hsize] using hj
    have hcells : (s.rowEntries i).foldl (fun out e => out.setIfInBounds e.1 e.2) (zeros buffer.size) =
        ((sparse s).grid.row i).toArray := by
      rw [hsize]
      exact Array.toList_inj.1 (h.foldl_rowEntries hi')
    calc (sparse s).rowInto? i buffer
        = if (s.rowEntries i).all fun e => decide (e.1 < buffer.size) then
            some ((s.rowEntries i).foldl (fun out e => out.setIfInBounds e.1 e.2) (zeros buffer.size)) else none := by
          simp only [rowInto?, hrow]
          rfl
      _ = some ((sparse s).grid.row i).toArray := by rw [if_pos hfits, hcells]
  · intro i _ row hread
    cases hread
  · intro values hvalues
    cases hvalues

/-- **A sound side input presents the matrix that it stands for.** -/
theorem Sound.presents (h : s.Sound) : s.Presents s.grid := by
  cases s with
  | dense d => exact presents_dense h
  | sparse s => exact presents_sparse h.1

/-! ## Turning a side input over -/

/-- the side input turned over, in its own form -/
def transpose : SideInput α → SideInput α
  | dense d => dense d.transpose
  | sparse s => sparse s.transpose

theorem Sound.get?_transpose (h : s.Sound) {i j : Nat} (hi : i < s.cols) (hj : j < s.rows) :
    s.transpose.get? i j = s.get? j i := by
  cases s with
  | dense d =>
    have hd : d.Sized := h
    exact Dense.get?_transpose hd hi hj
  | sparse s =>
    obtain ⟨hlaid, hfirst⟩ := h
    exact hlaid.get?_transpose hfirst hj hi

/-- **Turned over, a sound side input presents the matrix turned over.** -/
theorem Sound.presents_transpose (h : s.Sound) : s.transpose.Presents s.grid.transposed := by
  have hcell : ∀ i < s.cols, ∀ j < s.rows, s.transpose.grid.cell i j = s.grid.transposed.cell i j := by
    intro i hi j hj
    change (s.transpose.get? i j).getD zero = (s.get? j i).getD zero
    rw [h.get?_transpose hi hj]
  cases s with
  | dense d =>
    have hd : d.transpose.Sized := Dense.Sized.transpose h
    exact (presents_dense hd).congr rfl rfl hcell
  | sparse s =>
    obtain ⟨hlaid, hfirst⟩ := h
    exact (presents_sparse (hlaid.laidOut_transpose hfirst)).congr rfl rfl hcell

end SideInput

/-! ## Blocks as side inputs -/

variable [DecidableEq α]

namespace Block

/-- a block as a caller makes it: dense with all its cells, sparse and made empty or of such a block, or such a block
compressed -/
inductive Made : Block α → Prop where
  | dense {d : Dense α} (h : d.Sized) : Made (.dense d)
  | sparse {s : Sparse α} (h : s.Turned) : Made (.sparse s)
  | compressed {d : Dense α} {width : Nat} {c : Compressed α} (h : d.Sized) (hc : Compressed.ofDense d width = .ok c) :
      Made (.compressed c)

/-- a block as a caller makes it holds the cells of a dense block in some representation -/
theorem Made.exists_dense {b : Block α} (h : b.Made) : ∃ d : Dense α, d.Sized ∧ d.Represented b := by
  cases h with
  | dense h => exact ⟨_, h, .dense⟩
  | sparse h =>
    obtain ⟨d, hd, rfl⟩ := h.exists_dense
    exact ⟨d, hd, .sparse⟩
  | compressed h hc => exact ⟨_, h, .compressed hc⟩

end Block

namespace SideInput

omit [DecidableEq α] in
theorem ofBlock_true (b : Block α) : ofBlock b true = (ofBlock b false).transpose := by
  cases b <;> rfl

theorem sound_ofBlock {d : Dense α} {b : Block α} (hd : d.Sized) (h : d.Represented b) : (ofBlock b false).Sound := by
  cases h with
  | dense => exact hd
  | sparse => exact ⟨Sparse.laidOut_ofDense hd, Sparse.pos_ofDense_zero d⟩
  | compressed hc =>
    have hdecoded := Compressed.toDense_ofDense hc hd
    simp only [ofBlock, Sound, hdecoded]
    exact hd

/-- a block keeps its dimensions and its cells as a side input, also where it is decoded -/
theorem get?_ofBlock {d : Dense α} {b : Block α} (hd : d.Sized) (h : d.Represented b) :
    (ofBlock b false).rows = b.rows ∧ (ofBlock b false).cols = b.cols ∧
      ∀ i < b.rows, ∀ j < b.cols, (ofBlock b false).get? i j = b.get? i j := by
  cases h with
  | dense => exact ⟨rfl, rfl, fun i _ j _ => rfl⟩
  | sparse => exact ⟨rfl, rfl, fun i _ j _ => rfl⟩
  | @compressed width c hc =>
    obtain ⟨-, hrows, hcols, -⟩ := Compressed.ofDense_ok hc
    refine ⟨rfl, rfl, fun i hi j hj => ?_⟩
    have hi' : i < d.rows := hrows ▸ hi
    have hj' : j < d.cols := hcols ▸ hj
    have hdecoded : (ofBlock (.compressed c) false).get? i j = d.get? i j := by
      simp only [ofBlock, Compressed.toDense_ofDense hc hd]
      rfl
    rw [hdecoded, hd.get?_eq hi' hj']
    exact (Compressed.get?_ofDense hc hi' hj').symm

/-- **A block as a side input** presents the matrix that it stands for, turned over on demand. -/
theorem presents_ofBlock {b : Block α} (h : b.Made) (transposed : Bool) :
    (ofBlock b transposed).Presents (if transposed then b.grid.transposed else b.grid) := by
  obtain ⟨d, hd, hrep⟩ := h.exists_dense
  have hsound := sound_ofBlock hd hrep
  obtain ⟨hrows, hcols, hget⟩ := get?_ofBlock hd hrep
  have hcell : ∀ i < (ofBlock b false).rows, ∀ j < (ofBlock b false).cols,
      (ofBlock b false).grid.cell i j = b.grid.cell i j := by
    intro i hi j hj
    exact congrArg (·.getD zero) (hget i (hrows ▸ hi) j (hcols ▸ hj))
  cases transposed with
  | false =>
    rw [if_neg Bool.false_ne_true]
    exact hsound.presents.congr hrows hcols hcell
  | true =>
    rw [if_pos rfl, ofBlock_true]
    exact hsound.presents_transpose.congr hcols hrows fun i hi j hj => hcell j hj i hi

/-- **The operands beside the primary one.** A block as a caller makes it has a cell at every place of its matrix. As a
side input it presents that matrix, or the matrix turned over: in its dimensions, cell by cell, in any row written over
a buffer whatever the buffer held, and, where it is not sparse, in the rows and the whole of its own buffer. An
operator is handed a side input for each block behind the first, in their order, and only the first one may be turned
over. -/
theorem side_inputs_present :
    (∀ b : Block α, b.Made → (∀ i < b.rows, ∀ j < b.cols, b.get? i j = some (b.grid.cell i j)) ∧
      ∀ transposed, (ofBlock b transposed).Presents (if transposed then b.grid.transposed else b.grid) ∧
        (ofBlock b transposed).denseValues?.isSome = !b.isSparse ∧
        ∀ i, ((ofBlock b transposed).denseRow? i).isSome = !b.isSparse) ∧
    ∀ (inputs : List (Block α)) (transposeFirst : Bool),
      (ofInputs inputs transposeFirst).length = inputs.length - 1 ∧
      ∀ k b, inputs[k + 1]? = some b →
        (ofInputs inputs transposeFirst)[k]? = some (ofBlock b (transposeFirst && k == 0)) := by
  constructor
  · intro b hb
    constructor
    · intro i hi j hj
      obtain ⟨d, hd, hrep⟩ := hb.exists_dense
      rw [← (get?_ofBlock hd hrep).2.2 i hi j hj]
      exact (presents_ofBlock hb false).cells i hi j hj
    · intro transposed
      refine ⟨presents_ofBlock hb transposed, ?_, ?_⟩
      · cases b <;> cases transposed <;> rfl
      · intro i
        cases b <;> cases transposed <;> rfl
  · intro inputs transposeFirst
    cases inputs with
    | nil => exact ⟨rfl, fun k b hb => by cases hb⟩
    | cons main rest =>
      cases rest with
      | nil => exact ⟨rfl, fun k b hb => by cases hb⟩
      | cons first rest =>
        refine ⟨by simp [ofInputs], fun k b hb => ?_⟩
        cases k with
        | zero =>
          obtain rfl := Option.some.inj hb
          simp [ofInputs]
        | succ k =>
          have hrest : rest[k]? = some b := hb
          simp [ofInputs, hrest]

/-- a negative zero, a cell that is no number and two other cells -/
def besideCells : Dense Float :=
  ⟨2, 3, #[.ofBits 0x8000000000000000, .ofBits 0x4014000000000000, .ofBits 0, .ofBits 0x7ff8000000000000, .ofBits 0,
    .ofBits 0x4000000000000000], 3⟩

/-- the first column of a sparse side input, written over a buffer of twos, has the one zero and the cell that is no
number; the dense form of the block has the negative zero; the same block as second side input is not turned over -/
theorem turned_row_over_old_buffer :
    (ofBlock (.sparse (.ofDense besideCells)) true).rowInto? 0 (Array.replicate 2 (.ofBits 0x4000000000000000)) =
      some #[.ofBits 0, .ofBits 0x7ff8000000000000] ∧
    (ofBlock (.dense besideCells) true).denseRow? 0 =
      some (some #[.ofBits 0x8000000000000000, .ofBits 0x7ff8000000000000]) ∧
    (ofInputs [.dense besideCells, .dense besideCells, .dense besideCells] true)[1]? = some (.dense besideCells) := by
  have hsized : besideCells.Sized := rfl
  obtain ⟨hpresent, hinputs⟩ := side_inputs_present (α := Float)
  obtain ⟨-, hsparse⟩ := hpresent _ (.sparse (.ofDense hsized))
  obtain ⟨-, hdense⟩ := hpresent _ (.dense hsized)
  refine ⟨?_, ?_, ?_⟩
  · have hsize : (Array.replicate 2 (Float.ofBits 0x4000000000000000)).size = 2 := Array.size_replicate
    have hrow := (hsparse true).1.rowInto 0 (by decide) _ hsize
    exact hrow.trans (by decide +kernel)
  · have hrow := (hdense true).1.denseRow 0 (by decide) _ rfl
    exact congrArg some (hrow.trans (by decide +kernel))
  · exact (hinputs [.dense besideCells, .dense besideCells, .dense besideCells] true).2 1 _ rfl

end SideInput

end MatrixEngine
