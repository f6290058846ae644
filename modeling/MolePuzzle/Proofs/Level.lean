import MolePuzzle.Proofs.Moves
import MolePuzzle.Proofs.Run
import MolePuzzle.Proofs.Scan

/-!
# Levels as they are read

Whatever form a level comes in, what is read from it is the layout of some glyphs on the cells of
some size (`LevelSource.exists_glyphs`).  Such a layout is in order: its field has all its entries,
its actors are placed on floor, and so are its targets.
-/

set_option autoImplicit false

namespace MolePuzzle

namespace Glyph

variable {g : Glyph}

theorem terrain_of_hasBox (h : g.hasBox = true) : g.terrain = .floor := by
  cases g with
  | looseBox | placedBox => rfl
  | _ => cases h

theorem terrain_of_hasTarget (h : g.hasTarget = true) : g.terrain = .floor := by
  cases g with
  | placedBox | target => rfl
  | _ => cases h

end Glyph

namespace Layout

/-! ## The layout of glyphs -/

variable {s : Size} {glyph : Coord → Glyph} {c : Coord}

@[simp] theorem size_ofGlyphs : (ofGlyphs s glyph).field.size = s := rfl

theorem at?_ofGlyphs :
    (ofGlyphs s glyph).field.at? c = if c ∈ s then some (glyph c).terrain else none :=
  Field.at?_ofFn s _ c

theorem complete_ofGlyphs (s : Size) (glyph : Coord → Glyph) :
    (ofGlyphs s glyph).field.Complete := Field.complete_ofFn s _

theorem isFloor_ofGlyphs (hc : c ∈ s) (hterrain : (glyph c).terrain = .floor) :
    (ofGlyphs s glyph).field.IsFloor c := by
  rw [Field.IsFloor, at?_ofGlyphs, if_pos hc, hterrain]

theorem mem_boxes_ofGlyphs :
    c ∈ (ofGlyphs s glyph).actors.boxes ↔ c ∈ s ∧ (glyph c).hasBox = true := by
  simp [ofGlyphs]

theorem mem_targets_ofGlyphs :
    c ∈ (ofGlyphs s glyph).targets ↔ c ∈ s ∧ (glyph c).hasTarget = true := by
  simp [ofGlyphs]

theorem glyph_of_mole_ofGlyphs (h : (ofGlyphs s glyph).actors.mole = some c) :
    c ∈ s ∧ glyph c = .mole := by
  simpa using List.mem_of_getLast? h

/-- A mole that has the only glyph of its kind is the mole of the level. -/
theorem mole_ofGlyphs (hc : c ∈ s) (hglyph : glyph c = .mole)
    (hunique : ∀ e, glyph e = .mole → e = c) : (ofGlyphs s glyph).actors.mole = some c := by
  have hmem : c ∈ s.coords.filter fun c ↦ glyph c = .mole :=
    List.mem_filter.mpr ⟨Size.mem_coords.mpr hc, decide_eq_true hglyph⟩
  obtain ⟨e, he⟩ := Option.isSome_iff_exists.mp
    (List.getLast?_isSome.mpr (List.ne_nil_of_mem hmem))
  rw [← hunique e (glyph_of_mole_ofGlyphs he).2]
  exact he

/-- **The actors of a level are placed.** -/
theorem placed_ofGlyphs (s : Size) (glyph : Coord → Glyph) :
    (ofGlyphs s glyph).actors.Placed (ofGlyphs s glyph).field.IsFloor := by
  refine ⟨?_, ?_, ?_, (Size.nodup_coords s).filter _⟩
  · intro c hc
    obtain ⟨hin, hglyph⟩ := glyph_of_mole_ofGlyphs hc
    exact isFloor_ofGlyphs hin (by rw [hglyph]; rfl)
  · intro c hc hbox
    have hhas := (mem_boxes_ofGlyphs.mp hbox).2
    rw [(glyph_of_mole_ofGlyphs hc).2] at hhas
    cases hhas
  · intro c hc
    obtain ⟨hin, hhas⟩ := mem_boxes_ofGlyphs.mp hc
    exact isFloor_ofGlyphs hin (Glyph.terrain_of_hasBox hhas)

theorem isFloor_of_mem_targets_ofGlyphs (h : c ∈ (ofGlyphs s glyph).targets) :
    (ofGlyphs s glyph).field.IsFloor c := by
  obtain ⟨hin, hhas⟩ := mem_targets_ofGlyphs.mp h
  exact isFloor_ofGlyphs hin (Glyph.terrain_of_hasTarget hhas)

theorem pairwise_before_ofGlyphs (s : Size) (glyph : Coord → Glyph) :
    (ofGlyphs s glyph).actors.boxes.Pairwise Coord.Before ∧
      (ofGlyphs s glyph).targets.Pairwise Coord.Before :=
  ⟨(Size.pairwise_before_coords s).filter _, (Size.pairwise_before_coords s).filter _⟩

theorem nodup_targets_ofGlyphs (s : Size) (glyph : Coord → Glyph) :
    (ofGlyphs s glyph).targets.Nodup := (Size.nodup_coords s).filter _

/-! ## What is read -/

/-- Rows can be read if they have cells, and not more than coordinates can tell apart. -/
theorem ofRows_eq_ok_iff {rows : List (List Char)} {l : Layout} :
    ofRows rows = .ok l ↔
      (widthOfRows rows ≠ 0 ∧ widthOfRows rows < UInt32.size ∧ rows.length < UInt32.size) ∧
        ofGlyphs ⟨UInt32.ofNat (widthOfRows rows), UInt32.ofNat rows.length⟩
          (glyphOfRows (rows.map List.toArray).toArray) = l := by
  rw [← Nat.not_le, ← Nat.not_le, Ne, ← not_or, ← not_or, ofRows]
  dsimp only
  split <;> rename_i hsize
  · exact iff_of_false (fun h ↦ by cases h) fun h ↦ h.1 hsize
  · rw [Except.ok.injEq, and_iff_right hsize]

/-- The size that is read off rows: the width of the widest, and their number. -/
theorem size_of_ofRows {rows : List (List Char)} {l : Layout} (h : ofRows rows = .ok l) :
    l.field.size.width.toNat = widthOfRows rows ∧ l.field.size.height.toNat = rows.length := by
  obtain ⟨⟨-, hwidth, hheight⟩, rfl⟩ := ofRows_eq_ok_iff.mp h
  exact ⟨UInt32.toNat_ofNat_of_lt' hwidth, UInt32.toNat_ofNat_of_lt' hheight⟩

/-- Rows that can be read describe glyphs on the cells of a size that has cells. -/
theorem exists_glyphs_of_ofRows {rows : List (List Char)} {l : Layout} (h : ofRows rows = .ok l) :
    ∃ s glyph, s.isEmpty = false ∧ l = ofGlyphs s glyph := by
  obtain ⟨⟨hne, -, -⟩, hglyphs⟩ := ofRows_eq_ok_iff.mp h
  obtain ⟨hwidth, hheight⟩ := size_of_ofRows h
  have hrows : rows.length ≠ 0 := by
    intro hzero
    rw [List.length_eq_zero_iff] at hzero
    exact hne (by rw [hzero]; rfl)
  have hcells : l.field.size.isEmpty = false := by
    rw [Size.isEmpty_eq_false_iff, hwidth, hheight]
    exact ⟨Nat.one_le_iff_ne_zero.mpr hne, Nat.one_le_iff_ne_zero.mpr hrows⟩
  rw [← hglyphs] at hcells
  exact ⟨_, _, hcells, hglyphs.symm⟩

end Layout

theorem LevelSource.exists_glyphs {level : LevelSource} {l : Layout} (h : level.layout = .ok l) :
    ∃ s glyph, s.isEmpty = false ∧ l = .ofGlyphs s glyph := by
  cases level with
  | rows r => exact Layout.exists_glyphs_of_ofRows h
  | bytes b =>
    rw [layout, Layout.ofBytes] at h
    cases hrows : Layout.rowsOfBytes b with
    | error e => rw [hrows] at h; cases h
    | ok rows => rw [hrows] at h; exact Layout.exists_glyphs_of_ofRows h

end MolePuzzle
