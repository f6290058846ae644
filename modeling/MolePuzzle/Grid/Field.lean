import MolePuzzle.Grid.CellSet
import MolePuzzle.Grid.Size

/-!
# Fields

A field is a rectangle of terrain, kept as one array in reading order.  `Field.at?` looks a cell up
and is the view in which everything else is described: `Field.at?_ofFn` says what a freshly built
field shows, and `Field.at?_set` and `Field.at?_setSize` what it shows after a change.

A field grows and shrinks at its right and lower edges.  The terrain of the common part stays, and
the cells that are new start as void.

That the array has an entry for each cell is not part of the type, but a property `Field.Complete`
that the empty field has and all changes keep.
-/

set_option autoImplicit false

namespace MolePuzzle

/-- What a cell of the field is made of. -/
inductive Terrain where
  /-- Outside the level proper. -/
  | void
  /-- Blocks the mole and the boxes. -/
  | wall
  /-- Can be walked on. -/
  | floor
  deriving DecidableEq, Repr, Inhabited

/-- A rectangle of terrain. -/
structure Field where
  /-- Its extent. -/
  size : Size := {}
  /-- The terrain of its cells, row by row. -/
  cells : Array Terrain := #[]
  deriving DecidableEq, Repr, Inhabited

namespace Field

/-! ## Building and looking up -/

/-- The field whose terrain at a cell `c` of the size is `terrain c`. -/
def ofFn (s : Size) (terrain : Coord → Terrain) : Field :=
  ⟨s, Array.ofFn fun i : Fin s.area ↦ terrain (s.coordAt i)⟩

/-- The terrain at a cell, if it lies in the field. -/
def at? (f : Field) (c : Coord) : Option Terrain :=
  if c ∈ f.size then f.cells[f.size.index c]? else none

@[simp] theorem size_ofFn (s : Size) (terrain : Coord → Terrain) : (ofFn s terrain).size = s := rfl

theorem at?_ofFn (s : Size) (terrain : Coord → Terrain) (c : Coord) :
    (ofFn s terrain).at? c = if c ∈ s then some (terrain c) else none := by
  unfold at?
  split <;> rename_i h
  · rw [size_ofFn] at h
    rw [if_pos h]
    simp only [ofFn, Array.getElem?_ofFn, Size.index_lt_area h, ↓reduceDIte, Size.coordAt_index h]
  · rw [size_ofFn] at h
    rw [if_neg h]

/-- Only the cells of the size count. -/
theorem ofFn_congr {s : Size} {terrain terrain' : Coord → Terrain}
    (h : ∀ c ∈ s, terrain c = terrain' c) : ofFn s terrain = ofFn s terrain' := by
  have hentry : (fun i : Fin s.area ↦ terrain (s.coordAt i)) =
      fun i : Fin s.area ↦ terrain' (s.coordAt i) :=
    funext fun i ↦ h _ (Size.coordAt_mem i.isLt)
  rw [ofFn, ofFn, hentry]

/-- Is there one entry for each cell? -/
def Complete (f : Field) : Prop := f.cells.size = f.size.area

theorem complete_default : Complete {} := rfl

theorem complete_ofFn (s : Size) (terrain : Coord → Terrain) : (ofFn s terrain).Complete := by
  simp [Complete, ofFn]

theorem at?_eq_none_iff {f : Field} (h : f.Complete) {c : Coord} :
    f.at? c = none ↔ c ∉ f.size := by
  unfold at?
  split <;> rename_i hc
  · have hi : f.size.index c < f.cells.size := h ▸ Size.index_lt_area hc
    simp [hc, hi]
  · simp [hc]

theorem mem_size_of_at? {f : Field} {c : Coord} {terrain : Terrain} (h : f.at? c = some terrain) :
    c ∈ f.size := by
  unfold at? at h
  split at h
  · assumption
  · cases h

theorem exists_at?_eq_some {f : Field} (h : f.Complete) {c : Coord} (hc : c ∈ f.size) :
    ∃ terrain, f.at? c = some terrain := by
  cases hat : f.at? c with
  | none => exact absurd hc ((at?_eq_none_iff h).mp hat)
  | some terrain => exact ⟨terrain, rfl⟩

/-- A field whose entries are all there is found again by looking up its cells. -/
theorem ofFn_at? {f : Field} (h : f.Complete) :
    (ofFn f.size fun c ↦ (f.at? c).getD .void) = f := by
  obtain ⟨s, cells⟩ := f
  have hsize : cells.size = s.area := h
  rw [ofFn, Field.mk.injEq]
  refine ⟨rfl, Array.ext (by rw [Array.size_ofFn, hsize]) ?_⟩
  intro i hi hi'
  have harea : i < s.area := hsize ▸ hi'
  rw [Array.getElem_ofFn, at?, if_pos (Size.coordAt_mem harea), Size.index_coordAt harea,
    Array.getElem?_eq_getElem hi', Option.getD_some]

/-- A field is known from its size and what is found on its cells. -/
theorem eq_of_at?_eq {f g : Field} (hf : f.Complete) (hg : g.Complete)
    (hsize : f.size = g.size) (hat : ∀ c, f.at? c = g.at? c) : f = g := by
  rw [← ofFn_at? hf, ← ofFn_at? hg, hsize]
  simp only [hat]

/-! ## Changing a field -/

/-- The field with another extent: the common part is kept and the rest is void.  A size without
cells is no extent for a field, and leaves it as it is. -/
def setSize (f : Field) (s : Size) : Field :=
  if s.isEmpty then f else ofFn s fun c ↦ (f.at? c).getD .void

theorem at?_setSize (f : Field) {s : Size} (h : s.isEmpty = false) (c : Coord) :
    (f.setSize s).at? c = if c ∈ s then some ((f.at? c).getD .void) else none := by
  rw [setSize, if_neg (by simp [h]), at?_ofFn]

theorem complete_setSize {f : Field} (h : f.Complete) (s : Size) : (f.setSize s).Complete := by
  unfold setSize
  split
  · exact h
  · exact complete_ofFn _ _

theorem size_setSize (f : Field) (s : Size) :
    (f.setSize s).size = if s.isEmpty then f.size else s := by
  rw [setSize]
  split <;> rfl

theorem size_setSize_of_cells (f : Field) {s : Size} (hs : s.isEmpty = false) :
    (f.setSize s).size = s := by
  rw [size_setSize, if_neg (by simp [hs])]

/-- **The terrain after a resize**: what was there, and void on the cells that are new. -/
theorem at?_setSize_of_complete {f : Field} (h : f.Complete) (requested : Size) (c : Coord) :
    (f.setSize requested).at? c =
      if c ∈ (f.setSize requested).size then
        if c ∈ f.size then f.at? c else some .void
      else none := by
  by_cases hc : c ∈ (f.setSize requested).size
  · rw [if_pos hc]
    cases hempty : requested.isEmpty with
    | true =>
      have hstay : f.setSize requested = f := if_pos hempty
      rw [hstay] at hc ⊢
      rw [if_pos hc]
    | false =>
      rw [size_setSize_of_cells f hempty] at hc
      rw [at?_setSize f hempty, if_pos hc]
      by_cases hold : c ∈ f.size
      · obtain ⟨terrain, hat⟩ := exists_at?_eq_some h hold
        rw [if_pos hold, hat, Option.getD_some]
      · rw [if_neg hold, (at?_eq_none_iff h).mpr hold, Option.getD_none]
  · rw [if_neg hc, (at?_eq_none_iff (complete_setSize h requested)).mpr hc]

/-- Giving a field the size it has changes no terrain. -/
theorem at?_setSize_of_size_eq {f : Field} (h : f.Complete) {s : Size}
    (hsize : (f.setSize s).size = f.size) (c : Coord) : (f.setSize s).at? c = f.at? c := by
  rw [at?_setSize_of_complete h, hsize]
  by_cases hc : c ∈ f.size
  · rw [if_pos hc, if_pos hc]
  · rw [if_neg hc, (at?_eq_none_iff h).mpr hc]

/-- A field of void. -/
def blank (s : Size) : Field := setSize {} s

/-- Puts terrain on a cell, and tells whether the cell lies in the field. -/
def set (f : Field) (c : Coord) (terrain : Terrain) : Bool × Field :=
  if c ∈ f.size then (true, { f with cells := f.cells.setIfInBounds (f.size.index c) terrain })
  else (false, f)

theorem set_of_not_mem {f : Field} {c : Coord} (h : c ∉ f.size) (terrain : Terrain) :
    f.set c terrain = (false, f) := if_neg h

theorem fst_set_iff {f : Field} {c : Coord} {terrain : Terrain} :
    (f.set c terrain).1 = true ↔ c ∈ f.size := by
  unfold set
  split <;> simp [*]

@[simp] theorem size_set (f : Field) (c : Coord) (terrain : Terrain) :
    (f.set c terrain).2.size = f.size := by
  unfold set
  split <;> rfl

theorem at?_set {f : Field} (h : f.Complete) {c : Coord} (hc : c ∈ f.size) (terrain : Terrain)
    (e : Coord) : (f.set c terrain).2.at? e = if e = c then some terrain else f.at? e := by
  have hi : f.size.index c < f.cells.size := h ▸ Size.index_lt_area hc
  simp only [set, if_pos hc, at?]
  by_cases he : e ∈ f.size
  · rw [if_pos he, if_pos he, Array.getElem?_setIfInBounds]
    by_cases hce : e = c
    · rw [if_pos (by rw [hce]), if_pos hi, if_pos hce]
    · rw [if_neg fun hindex ↦ hce ((Size.index_inj hc he).mp hindex).symm, if_neg hce]
  · have hce : e ≠ c := fun hce ↦ he (hce ▸ hc)
    rw [if_neg he, if_neg he, if_neg hce]

theorem at?_set_of_ne {f : Field} (h : f.Complete) {c e : Coord} (he : e ≠ c) (terrain : Terrain) :
    (f.set c terrain).2.at? e = f.at? e := by
  by_cases hc : c ∈ f.size
  · rw [at?_set h hc, if_neg he]
  · rw [set_of_not_mem hc]

theorem complete_set {f : Field} (h : f.Complete) (c : Coord) (terrain : Terrain) :
    (f.set c terrain).2.Complete := by
  unfold set
  split
  · simpa [Complete] using h
  · exact h

/-! ## Scanning -/

/-- The cell at which a scan of the field finds its entry number `i`.  Numbers beyond the range of
the words are not told apart. -/
def scanCoord (s : Size) (i : Nat) : Coord :=
  let n := UInt32.ofNatClamp i
  let width := max s.width 1
  ⟨n % width, n / width⟩

/-- Every cell of the field with its terrain, row by row. -/
def scan (f : Field) : List (Coord × Terrain) :=
  f.cells.toList.zipIdx.map fun (terrain, i) ↦ (scanCoord f.size i, terrain)

/-- The cells that have the given terrain. -/
def cellsOf (f : Field) (terrain : Terrain) : CellSet :=
  .ofList ((f.scan.filter fun entry ↦ entry.2 = terrain).map Prod.fst)

end Field

end MolePuzzle
