import MolePuzzle.Proofs.SaveContents
import MolePuzzle.Proofs.WellFormed

/-!
# Saving a game

A game can be saved at any time, by writing its level text, and be gone on with by loading it.
`World.ofBytes_play` says what is then back: the field, the mole and the boxes, and all targets but
the one under the mole, which has no glyph of its own.

For the mole and the boxes this takes a field whose cells can be numbered with words.  In a larger
one the floor that moves are checked against is not that of the field, and the mole can go where it
is not written (`World.mole_lost_on_large_field`).
-/

set_option autoImplicit false

namespace MolePuzzle

namespace World

/-- **A saved game comes back, but for a target under the mole.**  Whatever is played on a level,
the level text of the world can be loaded, and gives the same field, the same targets except one
under the mole, and, if words can number the cells of the field, the same mole and the same
boxes. -/
theorem ofBytes_play {w start : World} {level : LevelSource} {events : List Event}
    (hload : w.loadFrom level = .ok (start, events)) (script : List Play) :
    let played := (start.play script).1
    ∃ reloaded, ofBytes played.bytes = .ok reloaded ∧ reloaded.field = played.field ∧
      (∀ c, c ∈ reloaded.targets ↔ c ∈ played.targets ∧ played.actors.mole ≠ some c) ∧
      (played.field.size.FitsWord → reloaded.actors.mole = played.actors.mole ∧
        ∀ c, c ∈ reloaded.actors.boxes ↔ c ∈ played.actors.boxes) := by
  intro played
  obtain ⟨l, hlevel, hl⟩ := exists_layout_of_loadFrom hload
  obtain ⟨s, glyph, hs, rfl⟩ := LevelSource.exists_glyphs hlevel
  obtain rfl : (w.install (.ofGlyphs s glyph)).1 = start := congrArg Prod.fst hl
  obtain ⟨hfield, htargets⟩ : played.field = (Layout.ofGlyphs s glyph).field ∧
      played.targets = (Layout.ofGlyphs s glyph).targets := script_frame _ script
  refine ⟨_, ofBytes_bytes (by rw [hfield]; exact hs), ?_, ?_, ?_⟩
  · exact Layout.field_written (by rw [hfield]; exact Layout.complete_ofGlyphs s glyph)
  · intro c
    show c ∈ played.written.targets ↔ _
    rw [Layout.mem_targets_written, and_comm (a := _ ≠ _)]
    refine and_iff_right_of_imp fun h ↦ ?_
    rw [hfield]
    exact Layout.isFloor_of_mem_targets_ofGlyphs (htargets ▸ h.1)
  · intro hfits
    have hordered : played.Ordered := by
      refine play_induction (P := Ordered) (fun _ p h ↦ h.play p) ?_ script
      exact ordered_install hlevel w (by rwa [hfield] at hfits)
    have hplaced := hordered.lawful.placed
    refine ⟨Option.ext fun c ↦ ?_, fun c ↦ ?_⟩
    · show played.written.actors.mole = some c ↔ _
      rw [Layout.mole_written]
      exact and_iff_right_of_imp (hplaced.mole_walkable c)
    · show c ∈ played.written.actors.boxes ↔ _
      rw [Layout.mem_boxes_written, ← and_assoc]
      refine and_iff_right_of_imp fun hbox ↦ ?_
      exact ⟨hplaced.boxes_walkable c hbox, fun hmole ↦ hplaced.mole_free c hmole hbox⟩

/-- A game is saved in the middle, and comes back. -/
theorem ofBytes_play_corridor :
    let script := [.move .right, .move .right, .undo]
    ∃ start events, loadFrom {} (.rows [['M', 'B', 'F', 'T']]) = .ok (start, events) ∧
      let played := (start.play script).1
      ∃ reloaded, ofBytes played.bytes = .ok reloaded ∧ reloaded.field = played.field ∧
        (∀ c, c ∈ reloaded.targets ↔ c ∈ played.targets ∧ played.actors.mole ≠ some c) ∧
        played.field.size.FitsWord ∧ reloaded.actors.mole = played.actors.mole ∧
          ∀ c, c ∈ reloaded.actors.boxes ↔ c ∈ played.actors.boxes := by
  intro script
  have hload : loadFrom {} (.rows [['M', 'B', 'F', 'T']]) = .ok (_, _) := rfl
  obtain ⟨reloaded, hreload, hfield, htargets, hactors⟩ := ofBytes_play hload script
  exact ⟨_, _, hload, reloaded, hreload, hfield, htargets, by decide, hactors (by decide)⟩

/-! ## A field with too many cells

The cell of the mole has the first number that is no word.  A scan takes it for the last word, and
that is the number of the cell beside it. -/

/-- A size with more cells than words can number. -/
def wideSize : Size := ⟨65537, 65536⟩

/-- All there is in the level is a mole, beside the first cell of the last row. -/
def wideGlyph (c : Coord) : Glyph := if c = ⟨1, 65535⟩ then .mole else .outside

/-- The rows of the level, of which all but the last can be short. -/
def wideRows : List (List Char) :=
  List.replicate 65535 [] ++ ['E' :: 'M' :: List.replicate 65535 'E']

theorem glyphOfRows_wideRows {c : Coord} (hc : c ∈ wideSize) :
    Layout.glyphOfRows (wideRows.map List.toArray).toArray c = wideGlyph c := by
  have hmole : c = ⟨1, 65535⟩ ↔ c.column.toNat = 1 ∧ c.row.toNat = 65535 := by
    obtain ⟨column, row⟩ := c
    rw [Coord.mk.injEq, ← UInt32.toNat_inj, ← UInt32.toNat_inj]
    exact Iff.rfl
  have hrow : c.row.toNat < 65536 := UInt32.lt_iff_toNat_lt.mp hc.2
  have hoffset : c.row.toNat < 65535 ∨ c.row.toNat = 65535 := by omega
  rw [Layout.glyphOfRows, List.getElem?_toArray, List.getElem?_map, wideRows, wideGlyph]
  rcases hoffset with hshort | hlast
  · rw [List.getElem?_append_left (by rwa [List.length_replicate]), List.getElem?_replicate,
      if_pos hshort, if_neg (by rw [hmole]; omega)]
    rfl
  · rw [List.getElem?_append_right (by rw [List.length_replicate]; omega), hlast,
      List.length_replicate, Nat.sub_self]
    show (List.toArray ('E' :: 'M' :: List.replicate 65535 'E'))[c.column.toNat]?.elim _ _ = _
    rw [List.getElem?_toArray]
    rcases hcolumn : c.column.toNat with _ | _ | n
    · rw [if_neg (by rw [hmole]; omega)]
      rfl
    · rw [if_pos (hmole.mpr ⟨hcolumn, hlast⟩)]
      rfl
    · rw [if_neg (by rw [hmole]; omega), List.getElem?_cons_succ, List.getElem?_cons_succ,
        List.getElem?_replicate]
      split <;> rfl

theorem ofRows_wideRows : Layout.ofRows wideRows = .ok (.ofGlyphs wideSize wideGlyph) := by
  have hlength : wideRows.length = 65536 := by
    rw [wideRows, List.length_append, List.length_replicate, List.length_singleton]
  have hlast : ('E' :: 'M' :: List.replicate 65535 'E').length = 65537 := by
    rw [List.length_cons, List.length_cons, List.length_replicate]
  have hwidth : Layout.widthOfRows wideRows = 65537 := by
    refine Nat.le_antisymm ?_ ?_
    · rw [Layout.widthOfRows_le_iff]
      intro row hrow
      rcases List.mem_append.mp hrow with hrow | hrow
      · rw [List.eq_of_mem_replicate hrow]
        exact Nat.zero_le _
      · rw [List.mem_singleton.mp hrow, hlast]
    · rw [← hlast]
      exact Layout.widthOfRows_le_iff.mp (Nat.le_refl _) _
        (List.mem_append_right _ (List.mem_singleton_self _))
  rw [Layout.ofRows]
  dsimp only
  rw [hwidth, hlength, if_neg (by decide)]
  exact congrArg Except.ok (Layout.ofGlyphs_congr fun _ ↦ glyphOfRows_wideRows)

theorem mole_wideLevel : (Layout.ofGlyphs wideSize wideGlyph).actors.mole = some ⟨1, 65535⟩ := by
  refine Layout.mole_ofGlyphs (by decide) (if_pos rfl) fun c hc ↦ ?_
  by_contra hne
  rw [wideGlyph, if_neg hne] at hc
  cases hc

theorem boxes_wideLevel (c : Coord) : c ∉ (Layout.ofGlyphs wideSize wideGlyph).actors.boxes := by
  rw [Layout.mem_boxes_ofGlyphs, wideGlyph]
  split <;> simp [Glyph.hasBox]

/-- The floor under the mole counts for the cell beside it. -/
theorem mem_floor_wideLevel :
    (⟨0, 65535⟩ : Coord) ∈ (Layout.ofGlyphs wideSize wideGlyph).field.cellsOf .floor := by
  have hentry : Field.scanCoord wideSize UInt32.size = ⟨0, 65535⟩ := by decide
  have hterrain : (wideGlyph (wideSize.coordAt UInt32.size)).terrain = .floor := by decide
  have hmem := Field.scanCoord_mem_cellsOf_ofFn (show UInt32.size < wideSize.area by decide)
    fun c ↦ (wideGlyph c).terrain
  rwa [hentry, hterrain] at hmem

/-- **A large field can lose the mole.**  In the level of `wideRows` the mole goes to the cell
beside it, which is outside of the level but taken for floor, and is not written there. -/
theorem mole_lost_on_large_field : ∃ start events,
    loadFrom {} (.rows wideRows) = .ok (start, events) ∧
      let played := (start.play [.move .left]).1
      played.actors.mole = some ⟨0, 65535⟩ ∧
        ∃ reloaded, ofBytes played.bytes = .ok reloaded ∧ reloaded.actors.mole = none := by
  obtain ⟨l, hl⟩ : ∃ l, l = Layout.ofGlyphs wideSize wideGlyph := ⟨_, rfl⟩
  have hload : loadFrom {} (.rows wideRows) = .ok (install {} l) := by
    rw [loadFrom_eq, LevelSource.layout, ofRows_wideRows, ← hl, Except.map]
  have hmoves : (install {} l).1.actors.Moves (· ∈ (install {} l).1.floor) .left
      { l.actors with mole := some ⟨0, 65535⟩ } := by
    refine .walk (?_ : l.actors.mole = some ⟨1, 65535⟩) (by decide) ?_ ?_
    · rw [hl, mole_wideLevel]
    · show _ ∈ l.field.cellsOf .floor
      rw [hl]
      exact mem_floor_wideLevel
    · show _ ∉ l.actors.boxes
      rw [hl]
      exact boxes_wideLevel _
  obtain ⟨r, hr, hactors⟩ := exists_move?_of_moves hmoves
  have hmole : ((install {} l).1.play [.move .left]).1.actors.mole = some ⟨0, 65535⟩ := by
    rw [play, List.map_singleton, applyAll, Play.command, apply, hr]
    exact congrArg Actors.mole hactors
  obtain ⟨hfield, -⟩ := (install {} l).1.script_frame [.move .left]
  refine ⟨(install {} l).1, _, hload, hmole, _, ofBytes_bytes ?_, ?_⟩
  · rw [hfield]
    show l.field.size.isEmpty = false
    rw [hl]
    decide
  · rw [Option.eq_none_iff_forall_ne_some]
    intro c hc
    obtain ⟨hfloor, hsame⟩ := Layout.mole_written.mp hc
    obtain rfl : ⟨0, 65535⟩ = c := Option.some.inj (hmole.symm.trans hsame)
    rw [hfield] at hfloor
    have hfloor : l.field.IsFloor ⟨0, 65535⟩ := hfloor
    rw [hl, Field.IsFloor, Layout.at?_ofGlyphs] at hfloor
    exact absurd hfloor (by decide)

/-- **Saving can lose a target, and on a large field the mole.** -/
theorem save_loses_target_and_mole :
    (∃ start events, loadFrom {} (.rows [['M', 'T']]) = .ok (start, events) ∧
      let played := (start.play [.move .right]).1
      played.targets = [⟨1, 0⟩] ∧
        ∃ reloaded, ofBytes played.bytes = .ok reloaded ∧ reloaded.targets = []) ∧
    ∃ start events, loadFrom {} (.rows wideRows) = .ok (start, events) ∧
      let played := (start.play [.move .left]).1
      played.actors.mole = some ⟨0, 65535⟩ ∧
        ∃ reloaded, ofBytes played.bytes = .ok reloaded ∧ reloaded.actors.mole = none :=
  ⟨⟨_, _, rfl, by decide, _, ofBytes_bytes (by decide), by decide⟩, mole_lost_on_large_field⟩

end World

end MolePuzzle
