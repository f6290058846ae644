import MolePuzzle.Proofs.Contained

/-!
# Drives keep a world well-formed

The commands to a world check nothing: a box may be set on a wall, and the wall may be painted
under it.  What keeps a world in order is how the editor combines its commands, and that every edit
forgets the moments that it may have made impossible.

`World.WellFormed` says what this order is, and `World.wellFormed_drive` that it holds at the end of
every drive from the empty world, and so after each of its acts.  It is derived from
`World.Ordered`, which adds that the world knows its floor.  That is an invariant: loading sets it
up, a click and an effective resize restart the history from a present that is in order, and moves
and ways through the history keep to the rule of moves.
-/

set_option autoImplicit false

namespace MolePuzzle

namespace World

/-- Everything stands where it can, now and at all remembered moments, and these come about from
each other by moves that the terrain allows. -/
structure WellFormed (w : World) : Prop where
  /-- The actors stand on floor, apart from each other. -/
  placed : w.actors.Placed w.field.IsFloor
  /-- So do the targets. -/
  targets_floor : ∀ c ∈ w.targets, w.field.IsFloor c
  targets_nodup : w.targets.Nodup
  /-- Remembered actors stand on floor that is there now. -/
  entries_placed : ∀ a ∈ w.history.entries, a.Placed w.field.IsFloor
  /-- A remembered moment leads to the next by a move over floor that is there now. -/
  entries_linked : ∀ k a b, w.history.entries[k]? = some a → w.history.entries[k + 1]? = some b →
    ∃ d, a.Moves w.field.IsFloor d b
  /-- The present moment of the history is that of the world. -/
  present : w.history.isEmpty = false → w.history.present? = some w.actors

/-- The invariant behind `World.WellFormed`: the world knows its floor, and its history is lawful
over it. -/
structure Ordered (w : World) : Prop where
  surveyed : w.Surveyed
  lawful : w.Lawful w.field.IsFloor
  targets_floor : ∀ c ∈ w.targets, w.field.IsFloor c
  targets_nodup : w.targets.Nodup

variable {v w : World}

theorem Ordered.wellFormed (h : w.Ordered) : w.WellFormed where
  placed := h.lawful.placed
  targets_floor := h.targets_floor
  targets_nodup := h.targets_nodup
  entries_placed a ha := h.lawful.entries_placed a (Array.mem_toList_iff.mpr ha)
  entries_linked k a b ha hb := by
    rw [← Array.getElem?_toList, List.getElem?_eq_some_iff] at ha hb
    obtain ⟨_, rfl⟩ := ha
    obtain ⟨hk, rfl⟩ := hb
    exact h.lawful.linked.getElem k hk
  present := h.lawful.shows.present?

/-! ## The acts of a drive -/

theorem ordered_empty : Ordered {} where
  surveyed := surveyed_empty
  lawful := {
    placed := ⟨by simp, by simp, by simp, List.nodup_nil⟩
    shows := History.shows_empty _
    entries_placed := by simp
    linked := .nil }
  targets_floor := by simp
  targets_nodup := List.nodup_nil

/-- **Loading a level puts a world in order.** -/
theorem ordered_install {level : LevelSource} {l : Layout} (h : level.layout = .ok l) (w : World)
    (hfits : l.field.size.FitsWord) : (w.install l).1.Ordered := by
  obtain ⟨s, glyph, -, rfl⟩ := LevelSource.exists_glyphs h
  exact {
    surveyed := surveyed_of_cellsOf (Layout.complete_ofGlyphs s glyph) hfits rfl
    lawful := lawful_of_start (Layout.placed_ofGlyphs s glyph) rfl
    targets_floor := fun _ ↦ Layout.isFloor_of_mem_targets_ofGlyphs
    targets_nodup := Layout.nodup_targets_ofGlyphs s glyph }

namespace Ordered

/-- **Playing keeps a world in order.** -/
theorem play (h : w.Ordered) (p : Play) : (w.apply p.command).1.Ordered := by
  obtain ⟨hfield, hfloor, htargets, -⟩ := w.play_frame p
  exact {
    surveyed := h.surveyed.congr hfield hfloor
    lawful := by
      rw [hfield]
      exact h.lawful.play (fun c ↦ (h.surveyed.mem_floor_iff c).mp) p
    targets_floor := by
      rw [hfield, htargets]
      exact h.targets_floor
    targets_nodup := by
      rw [htargets]
      exact h.targets_nodup }

/-- **A click keeps a world in order.** -/
theorem painted (h : w.Ordered) {tool : Tool} {cell : Coord} (hcell : cell ∈ w.field.size) :
    (w.painted tool cell).Ordered where
  surveyed := h.surveyed.painted
  lawful := by
    have hcomplete := h.surveyed.complete
    refine h.lawful.edited (edited_painted w tool cell) (fun hfield c hc ↦ (hfield c).trans hc) ?_
    exact placed_painted h.lawful.placed (isFloor_painted_self hcomplete hcell)
      fun _ ↦ isFloor_painted_of_ne hcomplete hcell
  targets_floor c hc := by
    rw [targets_painted] at hc
    exact isFloor_painted_of_mem_withCell h.surveyed.complete hcell Tool.terrain_of_hasTarget
      h.targets_floor hc
  targets_nodup := by
    rw [targets_painted]
    exact withCell_nodup h.targets_nodup _ _

/-- **Resizing keeps a world in order.** -/
theorem resize (h : w.Ordered) {s : Size} (hfits : (w.field.setSize s).size.FitsWord) :
    (w.resize s).1.Ordered := by
  have hkept : ∀ c, w.field.IsFloor c → c ∈ (w.field.setSize s).size →
      (w.resize s).1.field.IsFloor c := by
    intro c hfloor hc
    rw [field_resize]
    exact hfloor.setSize hc
  have hwithin : w.actors.within w.field.size = w.actors :=
    h.lawful.placed.within_eq_self fun _ ↦ Field.mem_size_of_at?
  have hplaced : (w.resize s).1.actors.Placed (w.resize s).1.field.IsFloor := by
    rw [actors_resize]
    exact h.lawful.placed.within hkept
  exact {
    surveyed := h.surveyed.resize hfits
    lawful := h.lawful.edited (edited_resize h.surveyed.complete fun _ ↦ hwithin)
      (fun hfield c hc ↦ (hfield c).trans hc) hplaced
    targets_floor := by
      rw [targets_resize]
      intro c hc
      obtain ⟨htarget, hin⟩ := List.mem_filter.mp hc
      exact hkept c (h.targets_floor c htarget) (of_decide_eq_true hin)
    targets_nodup := by
      rw [targets_resize]
      exact h.targets_nodup.filter _ }

/-- **An act keeps a world in order**, if words can number the cells of the field it leaves. -/
theorem act (h : w.Ordered) (a : Act) (hfits : (w.act a).1.field.size.FitsWord) :
    (w.act a).1.Ordered := by
  cases a with
  | play p =>
    rw [fst_act_play]
    exact h.play p
  | load level =>
    rw [fst_act_load] at hfits ⊢
    rcases w.respond_load_cases level with hstay | ⟨l, hl, hinstall⟩
    · rwa [hstay]
    · rw [hinstall] at hfits ⊢
      exact ordered_install hl w hfits
  | click e click =>
    exact act_click_induction (P := Ordered) h (fun _ _ ↦ h.painted) e click
  | resize s =>
    rw [fst_act_resize] at hfits ⊢
    rw [field_resize] at hfits
    exact h.resize hfits

end Ordered

/-- A drive leaves the world in order, if words can number the cells of every field on the way. -/
theorem ordered_drive (acts : List Act)
    (hfits : ∀ past ∈ acts.inits, (drive {} past).1.field.size.FitsWord) :
    (drive {} acts).1.Ordered := by
  induction acts using List.reverseRecOn with
  | nil => exact ordered_empty
  | append_singleton early a ih =>
    have hearly : (drive {} early).1.Ordered := by
      refine ih fun past hpast ↦ hfits past ?_
      rw [List.mem_inits] at hpast ⊢
      exact hpast.trans (List.prefix_append early [a])
    have hlast := hfits (early ++ [a]) (by rw [List.mem_inits])
    rw [fst_drive_concat] at hlast ⊢
    exact hearly.act a hlast

/-- **Drives keep a world well-formed.**  Whatever the player and the editor do, starting from the
empty world, everything stands where it can, and every remembered moment could be played here and
now.  The fields on the way must not have more cells than words can number. -/
theorem wellFormed_drive (acts : List Act)
    (hfits : ∀ past ∈ acts.inits, (drive {} past).1.field.size.FitsWord) :
    (drive {} acts).1.WellFormed := (ordered_drive acts hfits).wellFormed

/-- A level is played, a wall is painted in the way of the mole, and another mole is set, before the
field loses its last column. -/
theorem wellFormed_drive_corridor :
    let acts : List Act := [
      .load (.rows [['M', 'B', 'F', 'T'], ['F', 'W']]), .play (.move .right),
      .click ⟨.wall⟩ ⟨some ⟨0, 1⟩, false⟩, .play (.move .right), .play .undo,
      .click ⟨.mole⟩ ⟨some ⟨0, 0⟩, false⟩, .play (.move .right), .resize ⟨3, 2⟩]
    (∀ past ∈ acts.inits, (drive {} past).1.field.size.FitsWord) ∧
      (drive {} acts).1.WellFormed :=
  ⟨by decide, wellFormed_drive _ (by decide)⟩

end World

end MolePuzzle
