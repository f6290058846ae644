import MolePuzzle.Proofs.Edit
import MolePuzzle.Proofs.Level

/-!
# What every run keeps

Commands check nothing: boxes may stand on walls, outside of the field, or under the mole.  This
file is about what can be relied on all the same, after any commands and levels in any order.

* `World.Charted` is about the ground.  The field has all its entries, and cells once it has got a
  size.  What the world takes for floor lies in the field, and is the floor of the field if words
  can number its cells.
* `World.Distinct` is about what stands on it.  No cell is listed twice, neither among the boxes,
  now or at any remembered moment, nor among the targets.

Both hold of the empty world and are kept by every input, and so they hold at the end of every run
(`World.charted_run`, `World.distinct_run`).
-/

set_option autoImplicit false

namespace MolePuzzle

namespace World

variable {v w : World}

/-! ## One input -/

/-- An input is a play, a resize, or an edit. -/
theorem respond_cases (w : World) (input : Input) :
    (∃ p : Play, input = .command p.command) ∨ (∃ s, input = .command (.resize s)) ∨
      w.Edited (w.respond input).1 := by
  cases input with
  | load level =>
    rcases w.respond_load_cases level with hstay | ⟨l, -, hinstall⟩
    · rw [hstay]
      exact .inr (.inr (edited_refl w))
    · rw [hinstall]
      exact .inr (.inr (edited_install w l))
  | command c =>
    induction c using Command.casesPlay with
    | play p => exact .inl ⟨p, rfl⟩
    | resize s => exact .inr (.inl ⟨s, rfl⟩)
    | setTerrain c terrain => exact .inr (.inr (edited_setTerrain w c terrain))
    | setMole c => exact .inr (.inr (edited_setMole w c))
    | setBox c present => exact .inr (.inr (edited_setBox w c present))
    | setTarget c present => exact .inr (.inr (edited_setTarget w c present))

/-- What is remembered after an input was remembered before, or was present before or after. -/
theorem mem_entries_respond {input : Input} {a : Actors}
    (ha : a ∈ (w.respond input).1.history.entries) :
    a ∈ w.history.entries ∨ a = w.actors ∨ a = (w.respond input).1.actors := by
  have hstart : ∀ v : World, v.history = .start v.actors → a ∈ v.history.entries →
      a = v.actors := by
    intro v hv hmem
    rwa [hv, History.mem_entries_start] at hmem
  rcases w.respond_cases input with ⟨p, rfl⟩ | ⟨s, rfl⟩ | ⟨hhistory, -, -⟩ | hedited
  · rw [respond] at ha ⊢
    rcases w.apply_play_cases p with
      hstay | ⟨d, q, -, -, hmove⟩ | ⟨b, history, -, hundo, htravel⟩ |
        ⟨b, history, -, hredo, htravel⟩
    · rw [hstay] at ha
      exact .inl ha
    · rw [hmove] at ha ⊢
      rcases History.mem_entries_of_mem_add ha with hpast | hnew
      · split at hpast
        · exact (History.mem_entries_of_mem_add hpast).imp_right .inl
        · exact .inl hpast
      · exact .inr (.inr hnew)
    · rw [htravel] at ha
      exact .inl (History.entries_of_undo? hundo ▸ ha)
    · rw [htravel] at ha
      exact .inl (History.entries_of_redo? hredo ▸ ha)
  · rw [respond, apply] at ha ⊢
    by_cases hsize : w.field.size = (w.field.setSize s).size
    · rw [history_resize, if_pos hsize] at ha
      exact .inl ha
    · exact .inr (.inr (hstart _ (by rw [history_resize, if_neg hsize]) ha))
  · rw [hhistory] at ha
    exact .inl ha
  · exact .inr (.inr (hstart _ hedited ha))

/-! ## The ground -/

/-- The field is complete, and the world knows its floor as far as words reach. -/
structure Charted (w : World) : Prop where
  complete : w.field.Complete
  /-- Only the field that never had a size is without cells. -/
  size : w.field.size = {} ∨ w.field.size.isEmpty = false
  floor_mem : ∀ c ∈ w.floor, c ∈ w.field.size
  mem_floor_iff : w.field.size.FitsWord → ∀ c, c ∈ w.floor ↔ w.field.IsFloor c

theorem charted_empty : Charted {} where
  complete := surveyed_empty.complete
  size := .inl rfl
  floor_mem := by simp
  mem_floor_iff _ := surveyed_empty.mem_floor_iff

/-- The ground is charted after a scan of the field. -/
theorem charted_of_cellsOf (hcomplete : w.field.Complete)
    (hsize : w.field.size = {} ∨ w.field.size.isEmpty = false)
    (hfloor : w.floor = w.field.cellsOf .floor) : w.Charted where
  complete := hcomplete
  size := hsize
  floor_mem _ hc := Field.mem_size_of_mem_cellsOf hcomplete (hfloor ▸ hc)
  mem_floor_iff hfits := (surveyed_of_cellsOf hcomplete hfits hfloor).mem_floor_iff

theorem charted_install {level : LevelSource} {l : Layout} (h : level.layout = .ok l) (w : World) :
    (w.install l).1.Charted := by
  obtain ⟨s, glyph, hs, rfl⟩ := LevelSource.exists_glyphs h
  exact charted_of_cellsOf (Layout.complete_ofGlyphs s glyph) (.inr hs) rfl

namespace Charted

theorem surveyed (h : w.Charted) (hfits : w.field.size.FitsWord) : w.Surveyed :=
  ⟨h.complete, h.mem_floor_iff hfits⟩

theorem congr (h : w.Charted) (hfield : v.field = w.field) (hfloor : v.floor = w.floor) :
    v.Charted where
  complete := hfield ▸ h.complete
  size := hfield ▸ h.size
  floor_mem := by
    rw [hfield, hfloor]
    exact h.floor_mem
  mem_floor_iff := by
    rw [hfield, hfloor]
    exact h.mem_floor_iff

theorem setTerrain (h : w.Charted) (c : Coord) (terrain : Terrain) :
    (w.setTerrain c terrain).Charted where
  complete := complete_setTerrain h.complete c terrain
  size := by
    rw [size_setTerrain]
    exact h.size
  floor_mem e he := by
    rw [size_setTerrain]
    rcases mem_floor_of_mem_setTerrain he with he | ⟨rfl, hc⟩
    · exact h.floor_mem e he
    · exact hc
  mem_floor_iff hfits := by
    rw [size_setTerrain] at hfits
    exact ((h.surveyed hfits).setTerrain c terrain).mem_floor_iff

theorem resize (h : w.Charted) (s : Size) : (w.resize s).1.Charted := by
  refine charted_of_cellsOf ?_ ?_ ?_
  · rw [field_resize]
    exact Field.complete_setSize h.complete s
  · rw [field_resize, Field.size_setSize]
    split
    · exact h.size
    · rename_i hs
      exact .inr (Bool.not_eq_true _ ▸ hs)
  · rw [floor_resize, field_resize]

/-- **Every input keeps the ground charted.** -/
theorem respond (h : w.Charted) (input : Input) : (w.respond input).1.Charted := by
  cases input with
  | load level =>
    rcases w.respond_load_cases level with hstay | ⟨l, hl, hinstall⟩
    · rwa [hstay]
    · rw [hinstall]
      exact charted_install hl w
  | command c =>
    show (w.apply c).1.Charted
    induction c using Command.casesPlay with
    | play p =>
      obtain ⟨hfield, hfloor, -⟩ := w.play_frame p
      exact h.congr hfield hfloor
    | resize s => exact h.resize s
    | setTerrain c terrain => exact h.setTerrain c terrain
    | setMole c => exact h.congr (field_setMole w c) (floor_setMole w c)
    | setBox c present => exact h.congr (field_setBox w c present) (floor_setBox w c present)
    | setTarget c present => exact h.congr rfl rfl

theorem run (h : w.Charted) (inputs : List Input) : (w.run inputs).1.Charted :=
  run_induction (P := Charted) (fun _ input h ↦ h.respond input) h inputs

end Charted

/-- **The ground is charted at the end of every run.** -/
theorem charted_run (inputs : List Input) : (run {} inputs).1.Charted := charted_empty.run inputs

/-! ## The boxes and the targets -/

/-- No cell is listed twice. -/
structure Distinct (w : World) : Prop where
  boxes_nodup : w.actors.boxes.Nodup
  /-- Nor was it at a remembered moment. -/
  entries_nodup : ∀ a ∈ w.history.entries, a.boxes.Nodup
  targets_nodup : w.targets.Nodup

theorem distinct_empty : Distinct {} := ⟨List.nodup_nil, by simp, List.nodup_nil⟩

namespace Distinct

theorem boxes_nodup_play (h : w.Distinct) (p : Play) :
    (w.apply p.command).1.actors.boxes.Nodup := by
  rcases w.apply_play_cases p with
    hstay | ⟨d, q, -, hplan, hmove⟩ | ⟨a, history, -, hundo, htravel⟩ |
      ⟨a, history, -, hredo, htravel⟩
  · rw [hstay]
    exact h.boxes_nodup
  · rw [hmove]
    exact (moves_of_plan? hplan).boxes_nodup h.boxes_nodup
  · rw [htravel]
    exact h.entries_nodup a (History.mem_entries_of_undo? hundo)
  · rw [htravel]
    exact h.entries_nodup a (History.mem_entries_of_redo? hredo)

/-- The lists of the present have no duplicates after an input. -/
theorem nodup_respond (h : w.Distinct) (input : Input) :
    (w.respond input).1.actors.boxes.Nodup ∧ (w.respond input).1.targets.Nodup := by
  cases input with
  | load level =>
    rcases w.respond_load_cases level with hstay | ⟨l, hl, hinstall⟩
    · rw [hstay]
      exact ⟨h.boxes_nodup, h.targets_nodup⟩
    · obtain ⟨s, glyph, -, rfl⟩ := LevelSource.exists_glyphs hl
      rw [hinstall]
      exact ⟨(Layout.placed_ofGlyphs s glyph).boxes_nodup, Layout.nodup_targets_ofGlyphs s glyph⟩
  | command c =>
    show (w.apply c).1.actors.boxes.Nodup ∧ (w.apply c).1.targets.Nodup
    induction c using Command.casesPlay with
    | play p =>
      obtain ⟨-, -, htargets, -⟩ := w.play_frame p
      rw [htargets]
      exact ⟨h.boxes_nodup_play p, h.targets_nodup⟩
    | resize s =>
      rw [apply, actors_resize, targets_resize]
      exact ⟨h.boxes_nodup.filter _, h.targets_nodup.filter _⟩
    | setTerrain c terrain =>
      rw [apply, actors_setTerrain, targets_setTerrain]
      exact ⟨h.boxes_nodup, h.targets_nodup⟩
    | setMole c =>
      rw [apply, actors_setMole, targets_setMole]
      exact ⟨h.boxes_nodup, h.targets_nodup⟩
    | setBox c present =>
      rw [apply, actors_setBox, targets_setBox]
      exact ⟨withCell_nodup h.boxes_nodup c present, h.targets_nodup⟩
    | setTarget c present => exact ⟨h.boxes_nodup, withCell_nodup h.targets_nodup c present⟩

/-- **Every input keeps the lists without duplicates.** -/
theorem respond (h : w.Distinct) (input : Input) : (w.respond input).1.Distinct := by
  obtain ⟨hboxes, htargets⟩ := h.nodup_respond input
  refine ⟨hboxes, fun a ha ↦ ?_, htargets⟩
  rcases mem_entries_respond ha with ha | rfl | rfl
  · exact h.entries_nodup a ha
  · exact h.boxes_nodup
  · exact hboxes

end Distinct

/-- **No cell is listed twice at the end of a run.** -/
theorem distinct_run (inputs : List Input) : (run {} inputs).1.Distinct :=
  run_induction (P := Distinct) (fun _ input h ↦ h.respond input) distinct_empty inputs

end World

end MolePuzzle
