import MolePuzzle.Grid.Coord

/-!
# Sizes of a field

A size is a number of columns and a number of rows.  A cell belongs to a size when it lies within
both, so `c ∈ s` is the bounds check of the whole library.  The cells of a size are numbered row by
row: `Size.index` and `Size.coordAt` go back and forth between a cell and its number, and
`Size.coords` lists the cells in that order.
-/

set_option autoImplicit false

namespace MolePuzzle

/-- The extent of a rectangular field. -/
structure Size where
  /-- Number of columns. -/
  width : UInt32 := 0
  /-- Number of rows. -/
  height : UInt32 := 0
  deriving DecidableEq, Repr, Inhabited

namespace Size

/-- Number of cells. -/
def area (s : Size) : Nat := s.width.toNat * s.height.toNat

/-- A size without cells: one of its dimensions is zero. -/
def isEmpty (s : Size) : Bool := s.width == 0 || s.height == 0

theorem isEmpty_eq_false_iff {s : Size} :
    s.isEmpty = false ↔ 1 ≤ s.width.toNat ∧ 1 ≤ s.height.toNat := by
  rw [isEmpty, Bool.or_eq_false_iff, beq_eq_false_iff_ne, beq_eq_false_iff_ne, Ne, Ne,
    ← UInt32.toNat_inj, ← UInt32.toNat_inj, UInt32.toNat_zero]
  omega

/-- A cell lies within a size when it is left of its last column and above its last row. -/
instance : Membership Coord Size := ⟨fun s c ↦ c.column < s.width ∧ c.row < s.height⟩

theorem mem_iff {c : Coord} {s : Size} : c ∈ s ↔ c.column < s.width ∧ c.row < s.height := Iff.rfl

instance (c : Coord) (s : Size) : Decidable (c ∈ s) := decidable_of_iff _ mem_iff.symm

/-- A size that has a cell is not empty. -/
theorem isEmpty_eq_false_of_mem {c : Coord} {s : Size} (h : c ∈ s) : s.isEmpty = false := by
  rw [mem_iff, UInt32.lt_iff_toNat_lt, UInt32.lt_iff_toNat_lt] at h
  rw [isEmpty_eq_false_iff]
  omega

/-! ## Numbering the cells -/

/-- The number of a cell: the cells in the rows above it and those before it in its own. -/
def index (s : Size) (c : Coord) : Nat := c.row.toNat * s.width.toNat + c.column.toNat

/-- The cell with the given number. -/
def coordAt (s : Size) (i : Nat) : Coord :=
  ⟨UInt32.ofNat (i % s.width.toNat), UInt32.ofNat (i / s.width.toNat)⟩

theorem index_lt_area {s : Size} {c : Coord} (h : c ∈ s) : s.index c < s.area := by
  obtain ⟨hc, hr⟩ := h
  rw [UInt32.lt_iff_toNat_lt] at hc hr
  calc s.index c < c.row.toNat * s.width.toNat + s.width.toNat := by unfold index; omega
    _ = (c.row.toNat + 1) * s.width.toNat := by rw [Nat.add_mul, Nat.one_mul]
    _ ≤ s.height.toNat * s.width.toNat := Nat.mul_le_mul_right _ hr
    _ = s.area := Nat.mul_comm _ _

theorem coordAt_index {s : Size} {c : Coord} (h : c ∈ s) : s.coordAt (s.index c) = c := by
  have hc : c.column.toNat < s.width.toNat := UInt32.lt_iff_toNat_lt.mp h.1
  have hdiv : (c.row.toNat * s.width.toNat + c.column.toNat) / s.width.toNat = c.row.toNat := by
    rw [Nat.mul_comm, Nat.mul_add_div (by omega), Nat.div_eq_of_lt hc, Nat.add_zero]
  have hmod : (c.row.toNat * s.width.toNat + c.column.toNat) % s.width.toNat = c.column.toNat := by
    rw [Nat.mul_comm, Nat.mul_add_mod, Nat.mod_eq_of_lt hc]
  simp only [coordAt, index, hdiv, hmod, UInt32.ofNat_toNat]

theorem index_inj {s : Size} {c e : Coord} (hc : c ∈ s) (he : e ∈ s) :
    s.index c = s.index e ↔ c = e :=
  ⟨fun h ↦ by rw [← coordAt_index hc, h, coordAt_index he], fun h ↦ h ▸ rfl⟩

theorem toNat_coordAt {s : Size} {i : Nat} (h : i < s.area) :
    (s.coordAt i).column.toNat = i % s.width.toNat ∧
      (s.coordAt i).row.toNat = i / s.width.toNat := by
  have hw : 0 < s.width.toNat := by
    rcases Nat.eq_zero_or_pos s.width.toNat with h0 | h0
    · simp [area, h0] at h
    · exact h0
  have hcol : i % s.width.toNat < UInt32.size :=
    Nat.lt_trans (Nat.mod_lt _ hw) s.width.toNat_lt
  have hrow : i / s.width.toNat < s.height.toNat :=
    Nat.div_lt_of_lt_mul h
  exact ⟨UInt32.toNat_ofNat_of_lt' hcol,
    UInt32.toNat_ofNat_of_lt' (Nat.lt_trans hrow s.height.toNat_lt)⟩

theorem coordAt_mem {s : Size} {i : Nat} (h : i < s.area) : s.coordAt i ∈ s := by
  obtain ⟨hc, hr⟩ := toNat_coordAt h
  have hw : 0 < s.width.toNat := by
    rcases Nat.eq_zero_or_pos s.width.toNat with h0 | h0
    · simp [area, h0] at h
    · exact h0
  rw [mem_iff, UInt32.lt_iff_toNat_lt, UInt32.lt_iff_toNat_lt, hc, hr]
  exact ⟨Nat.mod_lt _ hw, Nat.div_lt_of_lt_mul h⟩

theorem index_coordAt {s : Size} {i : Nat} (h : i < s.area) : s.index (s.coordAt i) = i := by
  obtain ⟨hc, hr⟩ := toNat_coordAt h
  rw [index, hc, hr, Nat.mul_comm]
  exact Nat.div_add_mod i _

/-- The cells of a size, row by row. -/
def coords (s : Size) : List Coord := (List.range s.area).map s.coordAt

@[simp] theorem length_coords (s : Size) : s.coords.length = s.area := by simp [coords]

@[simp] theorem mem_coords {s : Size} {c : Coord} : c ∈ s.coords ↔ c ∈ s := by
  simp only [coords, List.mem_map, List.mem_range]
  exact ⟨fun ⟨i, hi, h⟩ ↦ h ▸ coordAt_mem hi, fun h ↦ ⟨s.index c, index_lt_area h, coordAt_index h⟩⟩

theorem nodup_coords (s : Size) : s.coords.Nodup := by
  rw [coords, List.nodup_iff_pairwise_ne, List.pairwise_map]
  refine List.Pairwise.imp_of_mem ?_ List.pairwise_lt_range
  intro i j hi hj hij h
  rw [List.mem_range] at hi hj
  have := congrArg s.index h
  rw [index_coordAt hi, index_coordAt hj] at this
  omega

end Size

end MolePuzzle
