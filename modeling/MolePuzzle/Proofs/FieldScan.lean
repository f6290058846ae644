import Mathlib.Data.Set.Card
import MolePuzzle.Proofs.FieldCalls
import MolePuzzle.Proofs.Scan

/-!
# A scan meets every cell once

A field can be read in two ways: cell by cell, as `Field.at?` does it, and from end to end, as
`Field.scan` does it.  The scan knows the entries of the array only by their numbers, and has to
find the cells again by dividing.  As long as a word can number them all, the two ways agree
(`Field.scan_agrees`): the scan meets the cells in the order of reading (`Coord.Before`), each of
them once, and with the terrain that it has.

It follows that the sets of cells with some terrain, from which the cells that can be walked on are
taken, are as large as they should be, and that each cell lies in just one of them.
-/

set_option autoImplicit false

namespace MolePuzzle

namespace Field

variable {f : Field} {c : Coord} {terrain : Terrain}

/-! ## What a scan meets -/

theorem map_fst_scan (h : f.Complete) (hfits : f.size.FitsWord) :
    f.scan.map Prod.fst = f.size.coords := by
  rw [scan_eq_map_coords h hfits, List.map_map]
  exact List.map_id _

/-- A scan meets a cell with the terrain that is found by looking it up. -/
theorem mem_scan_iff (h : f.Complete) (hfits : f.size.FitsWord) :
    (c, terrain) ∈ f.scan ↔ f.at? c = some terrain := by
  simp only [scan_eq_map_coords h hfits, List.mem_map, Size.mem_coords, Prod.mk.injEq]
  constructor
  · rintro ⟨e, he, rfl, rfl⟩
    obtain ⟨t, hat⟩ := exists_at?_eq_some h he
    rw [hat, Option.getD_some]
  · intro hat
    exact ⟨c, mem_size_of_at? hat, rfl, by rw [hat, Option.getD_some]⟩

/-! ## The cells of one terrain -/

/-- **There are as many cells in the set as the field has of the terrain.** -/
theorem size_cellsOf (h : f.Complete) (hfits : f.size.FitsWord) (terrain : Terrain) :
    (f.cellsOf terrain).size = {c | f.at? c = some terrain}.ncard := by
  let found := (f.scan.filter fun entry ↦ entry.2 = terrain).map Prod.fst
  -- They are some of the cells that the scan meets, so none of them is met twice.
  have hsublist : found.Sublist f.size.coords := by
    rw [← map_fst_scan h hfits]
    exact List.filter_sublist.map Prod.fst
  have hnodup : found.Nodup := (Size.nodup_coords f.size).sublist hsublist
  have hset : {c | f.at? c = some terrain} = found.toFinset := by
    ext c
    rw [Set.mem_ofPred_eq, ← mem_cellsOf_iff h hfits, cellsOf, CellSet.mem_ofList, SetLike.mem_coe,
      List.mem_toFinset]
  calc (f.cellsOf terrain).size = found.length :=
        Std.ExtTreeSet.size_ofList (hnodup.imp fun hne ↦ by rwa [Std.compare_eq_iff_eq])
    _ = found.toFinset.card := (List.toFinset_card_of_nodup hnodup).symm
    _ = {c | f.at? c = some terrain}.ncard := by rw [hset, Set.ncard_coe_finset]

/-- **A cell lies in the field exactly when it lies in one of the sets**, and then it lies in no
other. -/
theorem existsUnique_mem_cellsOf_iff (h : f.Complete) (hfits : f.size.FitsWord) :
    (∃! terrain, c ∈ f.cellsOf terrain) ↔ c ∈ f.size := by
  simp only [mem_cellsOf_iff h hfits]
  constructor
  · rintro ⟨terrain, hat, -⟩
    exact mem_size_of_at? hat
  · intro hc
    obtain ⟨terrain, hat⟩ := exists_at?_eq_some h hc
    exact ⟨terrain, hat, fun other hother ↦ Option.some.inj (hother.symm.trans hat)⟩

/-! ## Both ways of reading -/

/-- **Scanning a field agrees with looking its cells up.**  Let calls be made of a new field of some
size, and let a word be able to number the cells of the field they lead to.

* The scan meets the cells in the order of reading, and none of them twice.  It meets every cell of
  the field and nothing else, each with the terrain that it has.
* The set of cells with some terrain has just these cells, and as many of them as there are.
* The sets for void, wall and floor divide the field between them. -/
theorem scan_agrees (s : Size) (calls : List Call) :
    let f := calls.foldl call (blank s)
    f.size.FitsWord →
      (f.scan.map Prod.fst).Pairwise Coord.Before ∧ (f.scan.map Prod.fst).Nodup ∧
      (∀ c, c ∈ f.scan.map Prod.fst ↔ c ∈ f.size) ∧
      (∀ c terrain, (c, terrain) ∈ f.scan ↔ f.at? c = some terrain) ∧
      (∀ terrain c, (f.cellsOf terrain).contains c = true ↔ f.at? c = some terrain) ∧
      (∀ terrain, (f.cellsOf terrain).size = {c | f.at? c = some terrain}.ncard) ∧
      (∀ terrain, ∀ c ∈ f.cellsOf terrain, c ∈ f.size) ∧
      ∀ c ∈ f.size, ∃! terrain, c ∈ f.cellsOf terrain := by
  intro f hfits
  have hf : f.Complete := complete_after (.setSize s :: calls)
  rw [map_fst_scan hf hfits]
  refine ⟨Size.pairwise_before_coords _, Size.nodup_coords _, fun c ↦ Size.mem_coords,
    fun c terrain ↦ mem_scan_iff hf hfits, fun terrain c ↦ ?_, size_cellsOf hf hfits,
    fun terrain c hc ↦ ?_, fun c hc ↦ (existsUnique_mem_cellsOf_iff hf hfits).mpr hc⟩
  · rw [Std.ExtTreeSet.contains_iff_mem, mem_cellsOf_iff hf hfits]
  · exact mem_size_of_at? ((mem_cellsOf_iff hf hfits).mp hc)

/-- The largest square that a word can number, with its last cell made floor: that cell is found,
and it is the only one. -/
theorem scan_agrees_last :
    let last : Coord := ⟨65535, 65535⟩
    let f := [Call.set last .floor].foldl call (blank ⟨65536, 65536⟩)
    f.size.FitsWord ∧ f.size.area = UInt32.size ∧ (last, .floor) ∈ f.scan ∧
      (f.cellsOf .floor).contains last = true ∧ (f.cellsOf .floor).size = 1 := by
  intro last f
  have hblank : (blank ⟨65536, 65536⟩).size = ⟨65536, 65536⟩ := size_setSize_of_cells _ rfl
  have hsize : f.size = ⟨65536, 65536⟩ := (size_set _ _ _).trans hblank
  have hfits : f.size.FitsWord := by rw [hsize]; decide
  have hshows : ∀ c, f.at? c = some .floor ↔ c = last := by
    intro c
    have hat : f.at? c = if c = last then some .floor else (blank ⟨65536, 65536⟩).at? c :=
      at?_set (complete_setSize complete_default _) (hblank ▸ by decide) _ c
    rw [hat, blank, at?_setSize _ rfl]
    split
    · simp [*]
    · split <;> simp [*, at?, Size.mem_iff]
  obtain ⟨-, -, -, hscan, hcells, hcount, -, -⟩ :=
    scan_agrees ⟨65536, 65536⟩ [.set last .floor] hfits
  refine ⟨hfits, by rw [hsize]; rfl, (hscan _ _).mpr ((hshows _).mpr rfl),
    (hcells _ _).mpr ((hshows _).mpr rfl), ?_⟩
  rw [hcount, Set.ncard_eq_one]
  exact ⟨last, Set.ext hshows⟩

end Field

end MolePuzzle
