import MolePuzzle.Proofs.LevelText

/-!
# Symmetries of the grid

A field can be turned over so that left and right change places, or columns and rows.  Each
`Symmetry` says what becomes of directions, sizes and cells, of what the player asks for and of what
is told, and of level text.  Turned twice, everything is as it was.

Two facts carry the rest.  A step between cells of the field is a step of the turned field
(`Symmetry.step?_cell`), though steps out of the field fail for different reasons at its edges.  And
turned rows of characters have on each turned cell what the rows have on the cell
(`Symmetry.charAt?_rows`), though one symmetry acts within each row and the other across all of them.
-/

set_option autoImplicit false

namespace MolePuzzle

/-- A way to turn a field over, so that it becomes a field again. -/
inductive Symmetry where
  /-- Left and right change places. -/
  | mirror
  /-- Columns and rows change places. -/
  | transpose
  deriving DecidableEq, Repr, Inhabited

namespace Symmetry

/-! ## Directions, cells and events -/

/-- The direction that a direction becomes. -/
def direction : Symmetry → Direction → Direction
  | mirror, .left => .right
  | mirror, .right => .left
  | mirror, d => d
  | transpose, .up => .left
  | transpose, .left => .up
  | transpose, .down => .right
  | transpose, .right => .down

/-- The size that a size becomes. -/
def size : Symmetry → Size → Size
  | mirror, s => s
  | transpose, s => ⟨s.height, s.width⟩

/-- The cell that a cell becomes when a field of the given size is turned. -/
def cell : Symmetry → Size → Coord → Coord
  | mirror, s, c => ⟨s.width - 1 - c.column, c.row⟩
  | transpose, _, c => ⟨c.row, c.column⟩

/-- What the player asks for when the field is turned. -/
def play (σ : Symmetry) : Play → Play
  | .move d => .move (σ.direction d)
  | .undo => .undo
  | .redo => .redo

/-- The push that a push becomes. -/
def push (σ : Symmetry) (s : Size) (p : Push) : Push :=
  ⟨σ.cell s p.origin, σ.cell s p.destination⟩

/-- What is told when the field is turned. -/
def event (σ : Symmetry) (s : Size) : Event → Event
  | .fieldResized before after => .fieldResized (σ.size before) (σ.size after)
  | .moleMoved ⟨origin, destination, push⟩ =>
    .moleMoved ⟨origin.map (σ.cell s), destination.map (σ.cell s), push.map (σ.push s)⟩
  | .solved steps => .solved steps
  | .levelLoaded size => .levelLoaded (σ.size size)

variable {σ : Symmetry} {s : Size} {c e : Coord} {d : Direction}

@[simp] theorem direction_direction (σ : Symmetry) (d : Direction) :
    σ.direction (σ.direction d) = d := by
  cases σ <;> cases d <;> rfl

@[simp] theorem play_play (σ : Symmetry) (p : Play) : σ.play (σ.play p) = p := by
  cases p with
  | move d => rw [play, play, direction_direction]
  | undo => rfl
  | redo => rfl

@[simp] theorem size_size (σ : Symmetry) (s : Size) : σ.size (σ.size s) = s := by
  cases σ <;> rfl

/-- Cells are turned back on the turned field as they were turned on the first. -/
@[simp] theorem cell_size (σ : Symmetry) (s : Size) : σ.cell (σ.size s) = σ.cell s := by
  cases σ <;> rfl

@[simp] theorem cell_cell (σ : Symmetry) (s : Size) (c : Coord) :
    σ.cell s (σ.cell s c) = c := by
  cases σ with
  | mirror =>
    have hcolumn : s.width - 1 - (s.width - 1 - c.column) = c.column := by grind
    rw [cell, cell, hcolumn]
  | transpose => rfl

@[simp] theorem cell_inj : σ.cell s c = σ.cell s e ↔ c = e :=
  ⟨fun h ↦ by rw [← cell_cell σ s c, h, cell_cell], congrArg _⟩

/-- Every cell is a turned cell. -/
theorem forall_cell_iff (σ : Symmetry) (s : Size) {P : Coord → Prop} :
    (∀ c, P (σ.cell s c)) ↔ ∀ c, P c :=
  ⟨fun h c ↦ cell_cell σ s c ▸ h (σ.cell s c), fun h c ↦ h (σ.cell s c)⟩

@[simp] theorem area_size (σ : Symmetry) (s : Size) : (σ.size s).area = s.area := by
  cases σ with
  | mirror => rfl
  | transpose => exact Nat.mul_comm _ _

@[simp] theorem isEmpty_size (σ : Symmetry) (s : Size) : (σ.size s).isEmpty = s.isEmpty := by
  cases σ with
  | mirror => rfl
  | transpose => exact Bool.or_comm _ _

/-- Within the field the columns are counted from the other end. -/
theorem toNat_column_mirror (h : c.column < s.width) :
    (mirror.cell s c).column.toNat = s.width.toNat - 1 - c.column.toNat := by
  rw [UInt32.lt_iff_toNat_lt] at h
  have hone : (1 : UInt32) ≤ s.width := by
    rw [UInt32.le_iff_toNat_le, UInt32.toNat_one]
    omega
  have hwidth : (s.width - 1).toNat = s.width.toNat - 1 := UInt32.toNat_sub_of_le _ _ hone
  have hcolumn : c.column ≤ s.width - 1 := by
    rw [UInt32.le_iff_toNat_le, hwidth]
    omega
  rw [cell, UInt32.toNat_sub_of_le _ _ hcolumn, hwidth]

@[simp] theorem cell_mem_size : σ.cell s c ∈ σ.size s ↔ c ∈ s := by
  have hmem : ∀ {s : Size} {c : Coord}, c ∈ s → σ.cell s c ∈ σ.size s := by
    intro s c hc
    obtain ⟨hcolumn, hrow⟩ := Size.mem_iff.mp hc
    cases σ with
    | mirror =>
      refine Size.mem_iff.mpr ⟨?_, hrow⟩
      rw [size, UInt32.lt_iff_toNat_lt, toNat_column_mirror hcolumn]
      rw [UInt32.lt_iff_toNat_lt] at hcolumn
      omega
    | transpose => exact Size.mem_iff.mpr ⟨hrow, hcolumn⟩
  refine ⟨fun h ↦ ?_, hmem⟩
  have hback := hmem h
  rwa [size_size, cell_size, cell_cell] at hback

/-- **Steps are turned into steps.**  At the edges this holds within the field only: a step out of
the field at its upper or left edge leaves the range of the words, and one at the others need
not. -/
theorem step?_cell (hc : c ∈ s) (he : e ∈ s) :
    (σ.cell s c).step? (σ.direction d) = some (σ.cell s e) ↔ c.step? d = some e := by
  rw [Coord.step?_eq_some_iff, Coord.step?_eq_some_iff]
  cases σ with
  | mirror =>
    have hcolumn := UInt32.lt_iff_toNat_lt.mp hc.1
    have hcolumn' := UInt32.lt_iff_toNat_lt.mp he.1
    rw [toNat_column_mirror hc.1, toNat_column_mirror he.1]
    cases d <;> simp only [cell, direction, Direction.offset] <;> omega
  | transpose => cases d <;> simp only [cell, direction, Direction.offset] <;> omega

end Symmetry

/-! ## Rows of characters -/

/-- The character that rows have on a cell. -/
def charAt? (rows : List (List Char)) (c : Coord) : Option Char :=
  rows[c.row.toNat]? >>= fun row ↦ row[c.column.toNat]?

/-- The columns of rows, from top to bottom: each consists of the characters that the rows have at
one place. -/
def columns (rows : List (List Char)) : List (List Char) :=
  (List.range (Layout.widthOfRows rows)).map fun k ↦ rows.filterMap fun row ↦ row[k]?

/-- There are so many rows, all of the same length. -/
structure IsRectangle (width height : Nat) (rows : List (List Char)) : Prop where
  length_eq : rows.length = height
  length_of_mem : ∀ row ∈ rows, row.length = width

theorem Layout.glyphOfRows_eq (rows : List (List Char)) (c : Coord) :
    glyphOfRows (rows.map List.toArray).toArray c = (charAt? rows c).elim .outside .ofChar := by
  rw [glyphOfRows, charAt?]
  cases hrow : rows[c.row.toNat]? <;> simp [hrow]

/-- A rectangle of characters has one on each of its cells, and no other. -/
theorem IsRectangle.charAt?_ne_none_iff {s : Size} {rows : List (List Char)} {c : Coord}
    (h : IsRectangle s.width.toNat s.height.toNat rows) : charAt? rows c ≠ none ↔ c ∈ s := by
  rw [Size.mem_iff, UInt32.lt_iff_toNat_lt, UInt32.lt_iff_toNat_lt, charAt?, ← h.length_eq]
  cases hrow : rows[c.row.toNat]? with
  | none =>
    have hout := List.getElem?_eq_none_iff.mp hrow
    simp
    omega
  | some row =>
    have hmem := List.mem_of_getElem? hrow
    obtain ⟨hin, -⟩ := List.getElem?_eq_some_iff.mp hrow
    simp [← h.length_of_mem row hmem, hin]

/-- If all rows are long enough, a column has a character of each of them. -/
theorem length_column {rows : List (List Char)} {k : Nat} (h : ∀ row ∈ rows, k < row.length) :
    (rows.filterMap fun row ↦ row[k]?).length = rows.length := by
  rw [List.length_filterMap_eq_countP, List.countP_eq_length]
  intro row hrow
  simpa using h row hrow

theorem getElem?_column {rows : List (List Char)} {k : Nat} (h : ∀ row ∈ rows, k < row.length)
    (i : Nat) : (rows.filterMap fun row ↦ row[k]?)[i]? = rows[i]? >>= fun row ↦ row[k]? := by
  induction rows generalizing i with
  | nil => rfl
  | cons row rest ih =>
    obtain ⟨hrow, hrest⟩ := List.forall_mem_cons.mp h
    simp only [List.filterMap_cons, List.getElem?_eq_getElem hrow]
    cases i with
    | zero => simp [List.getElem?_eq_getElem hrow]
    | succ i => simpa using ih hrest i

namespace IsRectangle

variable {width height : Nat} {rows : List (List Char)} {s : Size} {c : Coord}

theorem ne_nil (h : IsRectangle width height rows) (hheight : 0 < height) : rows ≠ [] := by
  rw [Ne, ← List.length_eq_zero_iff, h.length_eq]
  omega

theorem widthOfRows_eq (h : IsRectangle width height rows) (hne : rows ≠ []) :
    Layout.widthOfRows rows = width := Layout.widthOfRows_eq hne h.length_of_mem

theorem reverse (h : IsRectangle width height rows) :
    IsRectangle width height (rows.map List.reverse) := by
  refine ⟨by rw [List.length_map, h.length_eq], ?_⟩
  rw [List.forall_mem_map]
  intro row hrow
  rw [List.length_reverse, h.length_of_mem row hrow]

theorem columns (h : IsRectangle width height rows) (hne : rows ≠ []) :
    IsRectangle height width (columns rows) := by
  rw [MolePuzzle.columns, h.widthOfRows_eq hne]
  refine ⟨by simp, ?_⟩
  rw [List.forall_mem_map]
  intro k hk
  rw [length_column, h.length_eq]
  intro row hrow
  rw [h.length_of_mem row hrow]
  exact List.mem_range.mp hk

theorem charAt?_reverse (h : IsRectangle s.width.toNat s.height.toNat rows)
    (hc : c ∈ s) : charAt? (rows.map List.reverse) (Symmetry.mirror.cell s c) = charAt? rows c := by
  rw [charAt?, charAt?, List.getElem?_map, Symmetry.toNat_column_mirror hc.1]
  show (rows[c.row.toNat]?.map List.reverse >>= _) = _
  cases hrow : rows[c.row.toNat]? with
  | none => rfl
  | some row =>
    have hlength := h.length_of_mem row (List.mem_of_getElem? hrow)
    have hcolumn := UInt32.lt_iff_toNat_lt.mp hc.1
    show row.reverse[s.width.toNat - 1 - c.column.toNat]? = row[c.column.toNat]?
    rw [← hlength, List.getElem?_reverse (by omega)]
    congr 1
    omega

theorem charAt?_columns (h : IsRectangle s.width.toNat s.height.toNat rows) (hc : c ∈ s) :
    charAt? (MolePuzzle.columns rows) (Symmetry.transpose.cell s c) = charAt? rows c := by
  obtain ⟨hcolumn, hrow⟩ := Size.mem_iff.mp hc
  rw [UInt32.lt_iff_toNat_lt] at hcolumn hrow
  have hne : rows ≠ [] := h.ne_nil (Nat.zero_lt_of_lt hrow)
  have hlong : ∀ row ∈ rows, c.column.toNat < row.length := fun row hrow ↦ by
    rwa [h.length_of_mem row hrow]
  have hget : (MolePuzzle.columns rows)[c.column.toNat]? =
      some (rows.filterMap fun row ↦ row[c.column.toNat]?) := by
    rw [MolePuzzle.columns, h.widthOfRows_eq hne, List.getElem?_map, List.getElem?_range hcolumn]
    rfl
  rw [charAt?, Symmetry.cell, hget]
  exact getElem?_column hlong c.row.toNat

end IsRectangle

namespace Symmetry

/-- The rows of the turned field. -/
def rows : Symmetry → List (List Char) → List (List Char)
  | mirror, r => r.map List.reverse
  | transpose, r => columns r

/-- The level text of the turned field. -/
def text (σ : Symmetry) (text : List Char) : List Char :=
  (σ.rows (Text.lines text)).flatMap fun row ↦ row ++ ['\n']

variable {σ : Symmetry} {rows : List (List Char)} {s : Size}

theorem isRectangle_rows (h : IsRectangle s.width.toNat s.height.toNat rows) (hne : rows ≠ []) :
    IsRectangle (σ.size s).width.toNat (σ.size s).height.toNat (σ.rows rows) := by
  cases σ with
  | mirror => exact h.reverse
  | transpose => exact h.columns hne

/-- **The turned rows have on each turned cell what the rows have on the cell.** -/
theorem charAt?_rows (h : IsRectangle s.width.toNat s.height.toNat rows) (hne : rows ≠ [])
    (c : Coord) : charAt? (σ.rows rows) (σ.cell s c) = charAt? rows c := by
  by_cases hc : c ∈ s
  · cases σ with
    | mirror => exact h.charAt?_reverse hc
    | transpose => exact h.charAt?_columns hc
  · have hnone : charAt? rows c = none := by
      by_contra hne
      exact hc (h.charAt?_ne_none_iff.mp hne)
    have hnone' : charAt? (σ.rows rows) (σ.cell s c) = none := by
      by_contra hne'
      exact hc (cell_mem_size.mp ((isRectangle_rows h hne).charAt?_ne_none_iff.mp hne'))
    rw [hnone, hnone']

end Symmetry

/-- Rectangles of one size are the same if they have the same characters on its cells. -/
theorem IsRectangle.ext {rows rows' : List (List Char)} {s : Size}
    (h : IsRectangle s.width.toNat s.height.toNat rows)
    (h' : IsRectangle s.width.toNat s.height.toNat rows')
    (heq : ∀ c ∈ s, charAt? rows c = charAt? rows' c) : rows = rows' := by
  refine List.ext_getElem (h.length_eq.trans h'.length_eq.symm) fun i hi hi' ↦ ?_
  have hrow := h.length_of_mem _ (List.getElem_mem hi)
  have hrow' := h'.length_of_mem _ (List.getElem_mem hi')
  refine List.ext_getElem (hrow.trans hrow'.symm) fun k hk hk' ↦ ?_
  have hheight : i < s.height.toNat := h.length_eq ▸ hi
  have hwidth : k < s.width.toNat := hrow ▸ hk
  have hi32 : (UInt32.ofNat i).toNat = i :=
    UInt32.toNat_ofNat_of_lt' (hheight.trans s.height.toNat_lt)
  have hk32 : (UInt32.ofNat k).toNat = k :=
    UInt32.toNat_ofNat_of_lt' (hwidth.trans s.width.toNat_lt)
  have hc : (⟨UInt32.ofNat k, UInt32.ofNat i⟩ : Coord) ∈ s := by
    rw [Size.mem_iff, UInt32.lt_iff_toNat_lt, UInt32.lt_iff_toNat_lt, hi32, hk32]
    exact ⟨hwidth, hheight⟩
  simpa [charAt?, hi32, hk32, hi, hi', hk, hk'] using heq _ hc

namespace Layout

variable {l k : Layout} {σ : Symmetry} {c : Coord}

theorem isRectangle_chars (l : Layout) :
    IsRectangle l.field.size.width.toNat l.field.size.height.toNat l.chars :=
  ⟨l.length_chars, fun _ ↦ length_of_mem_chars⟩

theorem charAt?_chars (hc : c ∈ l.field.size) : charAt? l.chars c = some (l.glyphAt c).char := by
  obtain ⟨hcolumn, hrow⟩ := hc
  rw [UInt32.lt_iff_toNat_lt] at hcolumn hrow
  simp [charAt?, chars, rows, hcolumn, hrow]

end Layout

end MolePuzzle
