import MolePuzzle.Proofs.Click
import MolePuzzle.Proofs.Lawful
import MolePuzzle.Proofs.Reachable

/-!
# Drives stay within the field

The editor sets boxes and the mole on cells of the field only, and moves cannot leave it, since all
that a world takes for floor lies in it.  So after a drive the actors are within the field, now and
at every remembered moment, and what is remembered is a game: each moment leads to the next by a
move (`World.contained_drive`).

This holds of fields of any size.  What the moves of such a game run over need not be floor: on a
field with more cells than words can number, a world may be mistaken about that.

What edits leave in place is shown first, for any choice of the cells that are walkable.
-/

set_option autoImplicit false

namespace MolePuzzle

/-! ## Edits that leave the actors placed -/

variable {walkable walkable' : Coord → Prop}

/-- Actors that are placed stay so when some are taken away. -/
theorem Actors.Placed.within {a : Actors} {s : Size} (h : a.Placed walkable)
    (hkept : ∀ c, walkable c → c ∈ s → walkable' c) : (a.within s).Placed walkable' := by
  have hmole : ∀ c, (a.within s).mole = some c → a.mole = some c ∧ c ∈ s := by
    intro c hc
    simpa [Actors.within, Option.filter_eq_some_iff] using hc
  have hboxes : ∀ c ∈ (a.within s).boxes, c ∈ a.boxes ∧ c ∈ s := by
    intro c hc
    simpa [Actors.within] using hc
  refine ⟨?_, ?_, ?_, h.boxes_nodup.filter _⟩
  · intro c hc
    exact hkept c (h.mole_walkable c (hmole c hc).1) (hmole c hc).2
  · intro c hc hbox
    exact h.mole_free c (hmole c hc).1 (hboxes c hbox).1
  · intro c hc
    exact hkept c (h.boxes_walkable c (hboxes c hc).1) (hboxes c hc).2

/-- All actors of a size's cells are within it. -/
theorem Actors.Placed.within_eq_self {a : Actors} {s : Size} (h : a.Placed walkable)
    (hwalkable : ∀ c, walkable c → c ∈ s) : a.within s = a :=
  within_eq_self_iff.mpr ⟨fun c hc ↦ hwalkable c (h.mole_walkable c hc),
    fun c hc ↦ hwalkable c (h.boxes_walkable c hc)⟩

namespace World

variable {v w : World} {tool : Tool} {cell : Coord}

/-- Painting a cell leaves the actors placed, if the tools that paint floor make it walkable. -/
theorem placed_painted (h : w.actors.Placed walkable)
    (hcell : tool.terrain = .floor → walkable' cell)
    (hother : ∀ c, c ≠ cell → walkable c → walkable' c) :
    (w.painted tool cell).actors.Placed walkable' := by
  rw [actors_painted]
  refine ⟨?_, ?_, ?_, withCell_nodup h.boxes_nodup _ _⟩
  · intro c hc
    rcases Tool.moleAfter_eq_some hc with ⟨rfl, hterrain, -⟩ | ⟨hne, hmole⟩
    · exact hcell hterrain
    · exact hother c hne (h.mole_walkable c hmole)
  · intro c hc
    rw [mem_withCell]
    rcases Tool.moleAfter_eq_some hc with ⟨rfl, -, hbox⟩ | ⟨hne, hmole⟩
    · simp [hbox]
    · rw [if_neg hne]
      exact h.mole_free c hmole
  · intro c hc
    rw [mem_withCell] at hc
    split at hc
    · rename_i he
      rw [he]
      exact hcell (Tool.terrain_of_hasBox hc)
    · rename_i he
      exact hother c he (h.boxes_walkable c hc)

/-- An edit keeps a world lawful if it leaves the actors placed: the moments it does not forget are
those of the same terrain. -/
theorem Lawful.edited (h : w.Lawful walkable) (hedited : w.Edited v)
    (hkept : (∀ c, v.field.at? c = w.field.at? c) → ∀ c, walkable c → walkable' c)
    (hplaced : v.actors.Placed walkable') : v.Lawful walkable' := by
  rcases hedited with ⟨hhistory, hactors, hfield⟩ | hstart
  · have hw := h.imp (hkept hfield)
    refine ⟨hplaced, ?_, ?_, ?_⟩
    · rw [hhistory, hactors]
      exact hw.shows
    · rw [hhistory]
      exact hw.entries_placed
    · rw [hhistory]
      exact hw.linked
  · exact lawful_of_start hplaced hstart

/-! ## Within the field -/

/-- A world whose remembered moments make a game within the field. -/
structure Contained (w : World) : Prop where
  charted : w.Charted
  lawful : w.Lawful (· ∈ w.field.size)

theorem contained_empty : Contained {} where
  charted := charted_empty
  lawful := {
    placed := ⟨by simp, by simp, by simp, List.nodup_nil⟩
    shows := History.shows_empty _
    entries_placed := by simp
    linked := .nil }

namespace Contained

theorem install {level : LevelSource} {l : Layout} (h : level.layout = .ok l) (w : World) :
    (w.install l).1.Contained := by
  refine ⟨charted_install h w, lawful_of_start ?_ rfl⟩
  obtain ⟨s, glyph, -, rfl⟩ := LevelSource.exists_glyphs h
  exact (Layout.placed_ofGlyphs s glyph).imp fun _ ↦ Field.mem_size_of_at?

theorem play (h : w.Contained) (p : Play) : (w.apply p.command).1.Contained := by
  obtain ⟨hfield, hfloor, -, -⟩ := w.play_frame p
  refine ⟨h.charted.congr hfield hfloor, ?_⟩
  rw [hfield]
  exact h.lawful.play h.charted.floor_mem p

theorem lawful_painted (h : w.Contained) (hcell : cell ∈ w.field.size) :
    (w.painted tool cell).Lawful (· ∈ (w.painted tool cell).field.size) := by
  have hsize : (w.painted tool cell).field.size = w.field.size := by
    rw [field_painted, size_setTerrain]
  rw [hsize]
  exact h.lawful.edited (edited_painted w tool cell) (fun _ _ hc ↦ hc)
    (placed_painted h.lawful.placed (fun _ ↦ hcell) fun _ _ hc ↦ hc)

theorem lawful_resize (h : w.Contained) (s : Size) :
    (w.resize s).1.Lawful (· ∈ (w.resize s).1.field.size) := by
  have hwithin : w.actors.within w.field.size = w.actors :=
    h.lawful.placed.within_eq_self fun _ hc ↦ hc
  refine h.lawful.edited (edited_resize h.charted.complete fun _ ↦ hwithin) ?_ ?_
  · intro hfield c hc
    obtain ⟨terrain, hat⟩ := Field.exists_at?_eq_some h.charted.complete hc
    exact Field.mem_size_of_at? ((hfield c).trans hat)
  · rw [actors_resize, field_resize]
    exact h.lawful.placed.within fun _ _ hc ↦ hc

/-- **An act keeps a world within its field.** -/
theorem act (h : w.Contained) (a : Act) : (w.act a).1.Contained := by
  have hcharted : (w.act a).1.Charted := h.charted.run (a.inputs w)
  cases a with
  | play p =>
    rw [fst_act_play]
    exact h.play p
  | load level =>
    rw [fst_act_load]
    rcases w.respond_load_cases level with hstay | ⟨l, hl, hinstall⟩
    · rwa [hstay]
    · rw [hinstall]
      exact install hl w
  | click e click =>
    refine ⟨hcharted, ?_⟩
    exact act_click_induction (P := fun v ↦ v.Lawful (· ∈ v.field.size)) h.lawful
      (fun _ _ ↦ h.lawful_painted) e click
  | resize s =>
    rw [fst_act_resize] at hcharted ⊢
    exact ⟨hcharted, h.lawful_resize s.clampForEditor⟩

end Contained

/-- **Drives stay within the field**, whatever its size. -/
theorem contained_drive (acts : List Act) : (drive {} acts).1.Contained := by
  induction acts using List.reverseRecOn with
  | nil => exact contained_empty
  | append_singleton early a ih =>
    rw [fst_drive_concat]
    exact ih.act a

end World

end MolePuzzle
