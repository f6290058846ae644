import MolePuzzle.Grid.Field

/-!
# Scanning a field

A scan pairs each entry of a field's array with the cell at which it finds it, and it numbers the
entries with words.  As long as there are no more cells than words, these are the cells the entries
are looked up at (`Field.scan_eq_map_coords`), and the cells found to have some terrain are those
that have it (`Field.mem_cellsOf_iff`).

The cells of a size are listed as they are met on a page that is read row by row (`Coord.Before`).
-/

set_option autoImplicit false

namespace MolePuzzle

/-! ## The order of reading -/

/-- The cell comes earlier when the field is read like a page. -/
def Coord.Before (a b : Coord) : Prop := a.row < b.row ∨ a.row = b.row ∧ a.column < b.column

instance (a b : Coord) : Decidable (a.Before b) := inferInstanceAs (Decidable (_ ∨ _))

namespace Size

/-- Cells with greater numbers come later. -/
theorem before_coordAt {s : Size} {i j : Nat} (hij : i < j) (hj : j < s.area) :
    (s.coordAt i).Before (s.coordAt j) := by
  obtain ⟨hcolumn, hrow⟩ := toNat_coordAt (Nat.lt_trans hij hj)
  obtain ⟨hcolumn', hrow'⟩ := toNat_coordAt hj
  rw [Coord.Before, UInt32.lt_iff_toNat_lt, UInt32.lt_iff_toNat_lt, ← UInt32.toNat_inj, hcolumn,
    hrow, hcolumn', hrow']
  rcases Nat.lt_or_eq_of_le (Nat.div_le_div_right (Nat.le_of_lt hij)) with hlt | heq
  · exact .inl hlt
  · refine .inr ⟨heq, ?_⟩
    have hdiv := Nat.div_add_mod i s.width.toNat
    have hdiv' := Nat.div_add_mod j s.width.toNat
    rw [heq] at hdiv
    omega

/-- The cells of a size are listed in the order of reading. -/
theorem pairwise_before_coords (s : Size) : s.coords.Pairwise Coord.Before := by
  rw [coords, List.pairwise_map]
  refine List.Pairwise.imp_of_mem ?_ List.pairwise_lt_range
  intro i j _ hj hij
  exact before_coordAt hij (List.mem_range.mp hj)

end Size

/-! ## Scans -/

/-- Are there at most as many cells as a word can number? -/
def Size.FitsWord (s : Size) : Prop := s.area ≤ UInt32.size

instance (s : Size) : Decidable s.FitsWord := inferInstanceAs (Decidable (_ ≤ _))

namespace Field

variable {f : Field} {c : Coord}

/-- A scan finds an entry at the cell of its number, or of the last word if that is less. -/
theorem scanCoord_eq_coordAt_min {s : Size} {i : Nat} (hi : i < s.area) :
    scanCoord s i = s.coordAt (min i (UInt32.size - 1)) := by
  have hwidth : max s.width 1 = s.width := by
    have hpos : 0 < s.width.toNat := by
      rw [Size.area] at hi
      exact Nat.pos_of_mul_pos_right (Nat.zero_lt_of_lt hi)
    show (if s.width ≤ 1 then 1 else s.width) = s.width
    split
    · rename_i hle
      rw [UInt32.le_iff_toNat_le, UInt32.toNat_one] at hle
      rw [← UInt32.toNat_inj, UInt32.toNat_one]
      omega
    · rfl
  have hnumber : (UInt32.ofNatClamp i).toNat = min i (UInt32.size - 1) := by
    rw [UInt32.ofNatClamp]
    split <;> rw [UInt32.toNat_ofNatLT] <;> omega
  obtain ⟨hcolumn, hrow⟩ := Size.toNat_coordAt (Nat.lt_of_le_of_lt (Nat.min_le_left i _) hi)
  rw [← hnumber] at hcolumn hrow ⊢
  have hmod : UInt32.ofNatClamp i % s.width = (s.coordAt (UInt32.ofNatClamp i).toNat).column := by
    rw [← UInt32.toNat_inj, UInt32.toNat_mod, hcolumn]
  have hdiv : UInt32.ofNatClamp i / s.width = (s.coordAt (UInt32.ofNatClamp i).toNat).row := by
    rw [← UInt32.toNat_inj, UInt32.toNat_div, hrow]
  simp only [scanCoord, hwidth, hmod, hdiv]

theorem scanCoord_eq_coordAt {s : Size} (hfits : s.FitsWord) {i : Nat} (hi : i < s.area) :
    scanCoord s i = s.coordAt i := by
  have hword : i < UInt32.size := Nat.lt_of_lt_of_le hi hfits
  rw [scanCoord_eq_coordAt_min hi, Nat.min_eq_left (Nat.le_sub_one_of_lt hword)]

/-- **A scan looks up the cells of the field, row by row.** -/
theorem scan_eq_map_coords (h : f.Complete) (hfits : f.size.FitsWord) :
    f.scan = f.size.coords.map fun c ↦ (c, (f.at? c).getD .void) := by
  refine List.ext_getElem ?_ ?_
  · rw [scan, List.length_map, List.length_zipIdx, List.length_map, Size.length_coords]
    exact h
  · intro i hi hi'
    have harea : i < f.size.area := by simpa using hi'
    have hcells : i < f.cells.size := h ▸ harea
    have hentry : f.at? (f.size.coordAt i) = some f.cells[i] := by
      rw [at?, if_pos (Size.coordAt_mem harea), Size.index_coordAt harea,
        Array.getElem?_eq_getElem hcells]
    simp [scan, Size.coords, scanCoord_eq_coordAt hfits harea, hentry]

/-- **The cells found to have a terrain are those that have it.** -/
theorem mem_cellsOf_iff (h : f.Complete) (hfits : f.size.FitsWord) {terrain : Terrain} :
    c ∈ f.cellsOf terrain ↔ f.at? c = some terrain := by
  rw [cellsOf, CellSet.mem_ofList, scan_eq_map_coords h hfits]
  simp only [List.mem_map, List.mem_filter, decide_eq_true_eq, Size.mem_coords]
  constructor
  · rintro ⟨_, ⟨⟨e, he, rfl⟩, hterrain⟩, rfl⟩
    obtain ⟨t, hat⟩ := exists_at?_eq_some h he
    rw [hat, Option.getD_some] at hterrain
    exact hat.trans (congrArg some hterrain)
  · intro hat
    exact ⟨_, ⟨⟨c, mem_size_of_at? hat, rfl⟩, by rw [hat, Option.getD_some]⟩, rfl⟩

/-- Whatever the number of cells, those found to have some terrain lie in the field. -/
theorem mem_size_of_mem_cellsOf (h : f.Complete) {terrain : Terrain}
    (hc : c ∈ f.cellsOf terrain) : c ∈ f.size := by
  rw [cellsOf, CellSet.mem_ofList, List.mem_map] at hc
  obtain ⟨entry, hentry, rfl⟩ := hc
  obtain ⟨⟨_, i⟩, hi, rfl⟩ := List.mem_map.mp (List.mem_filter.mp hentry).1
  have harea : i < f.size.area := by
    have hlength := List.snd_lt_of_mem_zipIdx hi
    rwa [Array.length_toList, h] at hlength
  show scanCoord f.size i ∈ f.size
  rw [scanCoord_eq_coordAt_min harea]
  exact Size.coordAt_mem (Nat.lt_of_le_of_lt (Nat.min_le_left _ _) harea)

/-- Whatever the number of cells, an entry counts for the cell at which the scan finds it. -/
theorem scanCoord_mem_cellsOf_ofFn {s : Size} {i : Nat} (hi : i < s.area)
    (terrain : Coord → Terrain) :
    scanCoord s i ∈ (ofFn s terrain).cellsOf (terrain (s.coordAt i)) := by
  rw [cellsOf, CellSet.mem_ofList, List.mem_map]
  refine ⟨(scanCoord s i, terrain (s.coordAt i)), ?_, rfl⟩
  rw [List.mem_filter, decide_eq_true_eq, scan, List.mem_map]
  refine ⟨⟨(terrain (s.coordAt i), i), ?_, rfl⟩, rfl⟩
  simp [List.mem_zipIdx_iff_getElem?, ofFn, hi]

/-! ## Floor -/

/-- The cell lies in the field, and is floor. -/
def IsFloor (f : Field) (c : Coord) : Prop := f.at? c = some .floor

instance (f : Field) (c : Coord) : Decidable (f.IsFloor c) := inferInstanceAs (Decidable (_ = _))

theorem mem_cellsOf_floor_iff (h : f.Complete) (hfits : f.size.FitsWord) :
    c ∈ f.cellsOf .floor ↔ f.IsFloor c := mem_cellsOf_iff h hfits

end Field

end MolePuzzle
