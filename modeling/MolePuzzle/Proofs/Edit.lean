import Mathlib.Data.List.Nodup
import MolePuzzle.Proofs.Scan
import MolePuzzle.Proofs.Timeline
import MolePuzzle.World.Edit

/-!
# What edits do

For each edit of a world, what it changes and what it leaves alone, as equations about the field,
the actors and the targets.

Two facts hold of all edits.  The first is about the history: an edit that leaves it alone leaves
the terrain and the actors alone, too, and any other starts it afresh from the edited moment
(`World.Edited`).  Resizing is an edit in this sense only as long as it does not take an actor away
while it leaves the size as it is (`World.edited_resize`).  The second is about the set of floor
cells, which stays in step with the field (`World.Surveyed`).
-/

set_option autoImplicit false

namespace MolePuzzle

namespace World

variable {u v w : World} {c e : Coord} {terrain : Terrain} {present : Bool}

/-! ## Terrain -/

theorem setTerrain_of_at?_eq (h : w.field.at? c = some terrain) : w.setTerrain c terrain = w := by
  simp [setTerrain, h]

theorem setTerrain_of_not_mem (h : c ∉ w.field.size) : w.setTerrain c terrain = w := by
  have hat : w.field.at? c = none := by rw [Field.at?, if_neg h]
  simp [setTerrain, hat]

/-- Setting new terrain on a cell of the field. -/
theorem setTerrain_of_at?_ne (hcomplete : w.field.Complete) (hc : c ∈ w.field.size)
    (hne : w.field.at? c ≠ some terrain) :
    w.setTerrain c terrain = restartHistory { w with
      field := (w.field.set c terrain).2
      floor := if terrain = .floor then (CellSet.add w.floor c).2
        else (CellSet.remove w.floor c).2 } := by
  obtain ⟨old, hold⟩ := Field.exists_at?_eq_some hcomplete hc
  have hne' : old ≠ terrain := fun h ↦ hne (by rw [hold, h])
  simp [setTerrain, hold, hne']

theorem setTerrain_cases (w : World) (c : Coord) (terrain : Terrain) :
    w.setTerrain c terrain = w ∨
      w.setTerrain c terrain = restartHistory { w with
        field := (w.field.set c terrain).2
        floor := if terrain = .floor then (CellSet.add w.floor c).2
          else (CellSet.remove w.floor c).2 } := by
  rw [setTerrain]
  split
  · exact .inl rfl
  · split
    · exact .inl rfl
    · exact .inr rfl

@[simp] theorem actors_setTerrain (w : World) (c : Coord) (terrain : Terrain) :
    (w.setTerrain c terrain).actors = w.actors := by
  rcases w.setTerrain_cases c terrain with h | h <;> rw [h]
  rfl

@[simp] theorem targets_setTerrain (w : World) (c : Coord) (terrain : Terrain) :
    (w.setTerrain c terrain).targets = w.targets := by
  rcases w.setTerrain_cases c terrain with h | h <;> rw [h]
  rfl

@[simp] theorem size_setTerrain (w : World) (c : Coord) (terrain : Terrain) :
    (w.setTerrain c terrain).field.size = w.field.size := by
  rcases w.setTerrain_cases c terrain with h | h
  · rw [h]
  · rw [h]
    exact w.field.size_set c terrain

/-- Floor that is new is on the cell that was set. -/
theorem mem_floor_of_mem_setTerrain (he : e ∈ (w.setTerrain c terrain).floor) :
    e ∈ w.floor ∨ e = c ∧ c ∈ w.field.size := by
  by_cases hc : c ∈ w.field.size
  · rcases w.setTerrain_cases c terrain with hset | hset
    · exact .inl (hset ▸ he)
    · rw [hset] at he
      replace he : e ∈ (if terrain = .floor then (CellSet.add w.floor c).2
        else (CellSet.remove w.floor c).2) := he
      split at he
      · exact (CellSet.mem_add.mp he).symm.imp_right fun he ↦ ⟨he, hc⟩
      · exact .inl (CellSet.mem_remove.mp he).2
  · rw [setTerrain_of_not_mem hc] at he
    exact .inl he

theorem complete_setTerrain (h : w.field.Complete) (c : Coord) (terrain : Terrain) :
    (w.setTerrain c terrain).field.Complete := by
  rcases w.setTerrain_cases c terrain with hset | hset
  · rwa [hset]
  · rw [hset]
    exact Field.complete_set h c terrain

theorem at?_setTerrain (hcomplete : w.field.Complete) (hc : c ∈ w.field.size) (terrain : Terrain)
    (e : Coord) : (w.setTerrain c terrain).field.at? e =
      if e = c then some terrain else w.field.at? e := by
  by_cases hat : w.field.at? c = some terrain
  · rw [setTerrain_of_at?_eq hat]
    split
    · rename_i he
      rw [he, hat]
    · rfl
  · rw [setTerrain_of_at?_ne hcomplete hc hat]
    exact Field.at?_set hcomplete hc terrain e

/-! ## Boxes, targets and the mole -/

theorem withCell_nodup {cells : List Coord} (h : cells.Nodup) (c : Coord) (present : Bool) :
    (withCell cells c present).Nodup := by
  rw [withCell]
  split
  · exact h
  · rename_i hcontains
    split
    · rename_i hpresent
      have hc : c ∉ cells := by simpa [hpresent] using hcontains
      exact List.nodup_append.mpr ⟨h, List.nodup_singleton c, fun a ha b hb hab ↦
        hc (by rwa [hab, List.mem_singleton.mp hb] at ha)⟩
    · exact h.filter _

theorem setBox_eq (w : World) (c : Coord) (present : Bool) :
    w.setBox c present =
      let actors : Actors := { w.actors with boxes := withCell w.actors.boxes c present }
      { w with
        actors := actors
        history := if w.actors.hasBox c = present then w.history else .start actors
        won := w.targets.all actors.hasBox } := by
  rw [setBox]
  split
  · rename_i h
    have hsame : withCell w.actors.boxes c present = w.actors.boxes := if_pos h
    rw [hsame]
    rfl
  · rfl

@[simp] theorem field_setBox (w : World) (c : Coord) (present : Bool) :
    (w.setBox c present).field = w.field := by rw [setBox_eq]

@[simp] theorem floor_setBox (w : World) (c : Coord) (present : Bool) :
    (w.setBox c present).floor = w.floor := by rw [setBox_eq]

@[simp] theorem targets_setBox (w : World) (c : Coord) (present : Bool) :
    (w.setBox c present).targets = w.targets := by rw [setBox_eq]

@[simp] theorem actors_setBox (w : World) (c : Coord) (present : Bool) :
    (w.setBox c present).actors =
      { w.actors with boxes := withCell w.actors.boxes c present } := by rw [setBox_eq]

theorem setMole_eq (w : World) (c : Option Coord) :
    w.setMole c =
      let actors : Actors := { w.actors with mole := c }
      { w with
        actors := actors
        history := if w.actors.mole = c then w.history else .start actors } := by
  rw [setMole]
  split
  · rename_i h
    rw [← h]
  · rfl

@[simp] theorem field_setMole (w : World) (c : Option Coord) : (w.setMole c).field = w.field := by
  rw [setMole_eq]

@[simp] theorem floor_setMole (w : World) (c : Option Coord) : (w.setMole c).floor = w.floor := by
  rw [setMole_eq]

@[simp] theorem targets_setMole (w : World) (c : Option Coord) :
    (w.setMole c).targets = w.targets := by rw [setMole_eq]

@[simp] theorem actors_setMole (w : World) (c : Option Coord) :
    (w.setMole c).actors = { w.actors with mole := c } := by rw [setMole_eq]

/-! ## Size -/

end World

/-- The actors that stand on cells of a size. -/
def Actors.within (a : Actors) (s : Size) : Actors where
  mole := a.mole.filter (· ∈ s)
  boxes := a.boxes.filter (· ∈ s)

theorem Actors.within_eq_self_iff {a : Actors} {s : Size} :
    a.within s = a ↔ (∀ c, a.mole = some c → c ∈ s) ∧ ∀ c ∈ a.boxes, c ∈ s := by
  obtain ⟨mole, boxes⟩ := a
  cases mole <;> simp [within]

namespace Field

/-- Floor that stays in the field stays floor. -/
theorem IsFloor.setSize {f : Field} {s : Size} {c : Coord} (h : f.IsFloor c)
    (hc : c ∈ (f.setSize s).size) : (f.setSize s).IsFloor c := by
  cases hs : s.isEmpty with
  | true => rwa [Field.setSize, if_pos hs]
  | false =>
    rw [size_setSize_of_cells f hs] at hc
    rw [IsFloor, at?_setSize f hs, if_pos hc, h, Option.getD_some]

end Field

namespace World

variable {u v w : World} {c e : Coord} {terrain : Terrain} {present : Bool}

theorem resize_eq (w : World) (s : Size) :
    (w.resize s).1 =
      let field := w.field.setSize s
      let layout : Layout :=
        ⟨field, w.actors.within field.size, w.targets.filter (· ∈ field.size)⟩
      { w with
        toLayout := layout
        floor := field.cellsOf .floor
        history := if w.field.size = field.size then w.history else .start layout.actors
        won := layout.covered } := by
  rw [resize]
  dsimp only
  split <;> rfl

theorem snd_resize (w : World) (s : Size) :
    (w.resize s).2 = if w.field.size = (w.field.setSize s).size then []
      else [.fieldResized w.field.size (w.field.setSize s).size] := by
  rw [resize]
  split <;> rfl

@[simp] theorem field_resize (w : World) (s : Size) :
    (w.resize s).1.field = w.field.setSize s := by rw [resize_eq]

@[simp] theorem floor_resize (w : World) (s : Size) :
    (w.resize s).1.floor = (w.field.setSize s).cellsOf .floor := by rw [resize_eq]

@[simp] theorem actors_resize (w : World) (s : Size) :
    (w.resize s).1.actors = w.actors.within (w.field.setSize s).size := by rw [resize_eq]

@[simp] theorem targets_resize (w : World) (s : Size) :
    (w.resize s).1.targets = w.targets.filter (· ∈ (w.field.setSize s).size) := by rw [resize_eq]

theorem history_resize (w : World) (s : Size) :
    (w.resize s).1.history =
      if w.field.size = (w.field.setSize s).size then w.history
      else .start (w.resize s).1.actors := by rw [resize_eq]

/-! ## The name and the counters -/

/-- What is known of a world besides its level and its moments: the name and the counters.  No edit
touches it. -/
def scorecard (w : World) : String × Nat × Nat := (w.name, w.steps, w.pushes)

theorem scorecard_eq_iff : v.scorecard = w.scorecard ↔
    v.name = w.name ∧ v.steps = w.steps ∧ v.pushes = w.pushes := by simp [scorecard]

@[simp] theorem scorecard_setTerrain (w : World) (c : Coord) (terrain : Terrain) :
    (w.setTerrain c terrain).scorecard = w.scorecard := by
  rcases w.setTerrain_cases c terrain with h | h <;> rw [h]
  rfl

@[simp] theorem scorecard_setMole (w : World) (c : Option Coord) :
    (w.setMole c).scorecard = w.scorecard := by
  rw [setMole_eq]
  rfl

@[simp] theorem scorecard_setBox (w : World) (c : Coord) (present : Bool) :
    (w.setBox c present).scorecard = w.scorecard := by
  rw [setBox_eq]
  rfl

@[simp] theorem scorecard_setTarget (w : World) (c : Coord) (present : Bool) :
    (w.setTarget c present).scorecard = w.scorecard := rfl

@[simp] theorem scorecard_resize (w : World) (s : Size) :
    (w.resize s).1.scorecard = w.scorecard := by
  rw [resize_eq]
  rfl

/-! ## The history under edits -/

/-- What an edit does to the history: it keeps it only if it keeps the terrain and the actors, and
starts it afresh otherwise. -/
def Edited (w v : World) : Prop :=
  (v.history = w.history ∧ v.actors = w.actors ∧ ∀ c, v.field.at? c = w.field.at? c) ∨
    v.history = .start v.actors

theorem edited_refl (w : World) : w.Edited w := .inl ⟨rfl, rfl, fun _ ↦ rfl⟩

theorem Edited.trans (h : w.Edited v) (h' : v.Edited u) : w.Edited u := by
  rcases h' with ⟨hhistory', hactors', hfield'⟩ | hstart'
  · rcases h with ⟨hhistory, hactors, hfield⟩ | hstart
    · exact .inl ⟨hhistory'.trans hhistory, hactors'.trans hactors,
        fun c ↦ (hfield' c).trans (hfield c)⟩
    · exact .inr (by rw [hhistory', hstart, hactors'])
  · exact .inr hstart'

theorem Edited.shows (h : w.Edited v) (hw : w.history.Shows w.actors) :
    v.history.Shows v.actors := by
  rcases h with ⟨hhistory, hactors, _⟩ | hstart
  · rwa [hhistory, hactors]
  · rw [hstart]
    exact History.shows_start _

/-- A world that starts afresh has no other moments to go to. -/
theorem canUndo_canRedo_of_start {a : Actors} (h : w.history = .start a) :
    w.canUndo = false ∧ w.canRedo = false := by
  rw [canUndo, canRedo, h]
  exact ⟨rfl, rfl⟩

theorem edited_setTerrain (w : World) (c : Coord) (terrain : Terrain) :
    w.Edited (w.setTerrain c terrain) := by
  rcases w.setTerrain_cases c terrain with h | h <;> rw [h]
  · exact edited_refl w
  · exact .inr rfl

theorem edited_setMole (w : World) (c : Option Coord) : w.Edited (w.setMole c) := by
  rw [setMole]
  split
  · exact edited_refl w
  · exact .inr rfl

theorem edited_setBox (w : World) (c : Coord) (present : Bool) :
    w.Edited (w.setBox c present) := by
  rw [setBox]
  split
  · exact .inl ⟨rfl, rfl, fun _ ↦ rfl⟩
  · exact .inr rfl

theorem edited_setTarget (w : World) (c : Coord) (present : Bool) :
    w.Edited (w.setTarget c present) := .inl ⟨rfl, rfl, fun _ ↦ rfl⟩

/-- Resizing to the size that the field has must find everything inside to be an edit. -/
theorem edited_resize (hcomplete : w.field.Complete) {s : Size}
    (hwithin : (w.field.setSize s).size = w.field.size →
      w.actors.within w.field.size = w.actors) :
    w.Edited (w.resize s).1 := by
  by_cases hsize : w.field.size = (w.field.setSize s).size
  · refine .inl ⟨?_, ?_, ?_⟩
    · rw [history_resize, if_pos hsize]
    · rw [actors_resize, ← hsize, hwithin hsize.symm]
    · rw [field_resize]
      exact Field.at?_setSize_of_size_eq hcomplete hsize.symm
  · exact .inr (by rw [history_resize, if_neg hsize])

theorem edited_install (w : World) (l : Layout) : w.Edited (w.install l).1 := .inr rfl

/-! ## The set of floor cells -/

/-- The field has its entries, and the world knows which of its cells are floor. -/
structure Surveyed (w : World) : Prop where
  complete : w.field.Complete
  mem_floor_iff : ∀ c, c ∈ w.floor ↔ w.field.IsFloor c

theorem surveyed_empty : Surveyed {} :=
  ⟨Field.complete_default, fun c ↦ by simp [Field.IsFloor, Field.at?]⟩

/-- A survey of the whole field is right as long as words can number the cells. -/
theorem surveyed_of_cellsOf (hcomplete : w.field.Complete) (hfits : w.field.size.FitsWord)
    (hfloor : w.floor = w.field.cellsOf .floor) : w.Surveyed :=
  ⟨hcomplete, fun _ ↦ by rw [hfloor, Field.mem_cellsOf_floor_iff hcomplete hfits]⟩

theorem Surveyed.resize (h : w.Surveyed) {s : Size} (hfits : (w.field.setSize s).size.FitsWord) :
    (w.resize s).1.Surveyed :=
  surveyed_of_cellsOf (by rw [field_resize]; exact Field.complete_setSize h.complete s)
    (by rwa [field_resize]) (by rw [floor_resize, field_resize])

theorem Surveyed.setTerrain (h : w.Surveyed) (c : Coord) (terrain : Terrain) :
    (w.setTerrain c terrain).Surveyed := by
  by_cases hc : c ∈ w.field.size
  · by_cases hat : w.field.at? c = some terrain
    · rwa [setTerrain_of_at?_eq hat]
    · refine ⟨complete_setTerrain h.complete c terrain, fun e ↦ ?_⟩
      have hset := at?_setTerrain h.complete hc terrain e
      rw [Field.IsFloor, hset]
      rw [setTerrain_of_at?_ne h.complete hc hat]
      show e ∈ (if terrain = .floor then (CellSet.add w.floor c).2
        else (CellSet.remove w.floor c).2) ↔ _
      split
      · rename_i hfloor
        rw [CellSet.mem_add, h.mem_floor_iff, hfloor]
        by_cases he : e = c <;> simp [he, Field.IsFloor]
      · rename_i hfloor
        rw [CellSet.mem_remove, h.mem_floor_iff]
        by_cases he : e = c <;> simp [he, hfloor, Field.IsFloor]
  · rwa [setTerrain_of_not_mem hc]

theorem Surveyed.congr (h : w.Surveyed) (hfield : v.field = w.field) (hfloor : v.floor = w.floor) :
    v.Surveyed :=
  ⟨hfield ▸ h.complete, fun c ↦ by rw [hfloor, hfield, h.mem_floor_iff]⟩

end World

end MolePuzzle
