import MolePuzzle.Proofs.LevelText
import MolePuzzle.Proofs.Reachable

/-!
# What a save keeps

Any world whose field has cells can be written and read back, also one in which commands have set
boxes on walls, outside of the field or under the mole.  `World.ofBytes_run` says what is then left
of it, cell by cell: the terrain, and of the mole, the boxes and the targets what stands on floor
and is not hidden by the mole.

The lists that are read back are in reading order, whatever the order in which they were built, and
what is left is written as before.  So the text of a world is the normal form of all it keeps.
-/

set_option autoImplicit false

namespace MolePuzzle.World

/-- A world that is loaded from rows is the layout of the rows, put into play. -/
theorem ofRows_eq_map (rows : List (List Char)) :
    ofRows rows = (Layout.ofRows rows).map fun l ↦ (install {} l).1 := by
  rw [ofRows, load]
  cases Layout.ofRows rows <;> rfl

/-- A world that is loaded from bytes is the layout of the bytes, put into play. -/
theorem ofBytes_eq_map (bytes : List UInt8) :
    ofBytes bytes = (Layout.ofBytes bytes).map fun l ↦ (install {} l).1 := by
  rw [ofBytes, loadBytes]
  cases Layout.ofBytes bytes <;> rfl

/-- What has been written is put into play again. -/
theorem ofBytes_bytes {w : World} (h : w.field.size.isEmpty = false) :
    ofBytes w.bytes = .ok (install {} w.written).1 := by
  rw [ofBytes_eq_map, Layout.ofBytes_bytes h]
  rfl

/-- The level text of a world with cells is loaded as a world of the same size and text. -/
theorem exists_ofBytes_bytes {w : World} (hcells : w.field.size.isEmpty = false)
    (hcomplete : w.field.Complete) :
    ∃ loaded, ofBytes w.bytes = .ok loaded ∧ loaded.field.size = w.field.size ∧
      loaded.bytes = w.bytes :=
  ⟨_, ofBytes_bytes hcells, rfl, Layout.bytes_written hcomplete⟩

/-- **What a save keeps.**  After any commands and levels that have given the field a size, the
level text has a byte for each cell and each line end, and it can be loaded.  The loaded world has
the same field and writes the same text; it has the mole if that stood on floor, and just those
boxes and targets that were on floor and not on the cell of the mole that is kept, each once and in
reading order. -/
theorem ofBytes_run (inputs : List Input) (hsize : (run {} inputs).1.field.size ≠ {}) :
    let w := (run {} inputs).1
    w.bytes.length = (w.field.size.width.toNat + 1) * w.field.size.height.toNat ∧
      ∃ reloaded, ofBytes w.bytes = .ok reloaded ∧ reloaded.field = w.field ∧
        (∀ c, reloaded.actors.mole = some c ↔ w.actors.mole = some c ∧ w.field.IsFloor c) ∧
        (∀ c, c ∈ reloaded.actors.boxes ↔
          c ∈ w.actors.boxes ∧ w.field.IsFloor c ∧ reloaded.actors.mole ≠ some c) ∧
        (∀ c, c ∈ reloaded.targets ↔
          c ∈ w.targets ∧ w.field.IsFloor c ∧ reloaded.actors.mole ≠ some c) ∧
        reloaded.actors.boxes.Pairwise Coord.Before ∧ reloaded.targets.Pairwise Coord.Before ∧
        reloaded.bytes = w.bytes := by
  intro w
  have hcharted : w.Charted := charted_run inputs
  have hcells : w.field.size.isEmpty = false := hcharted.size.resolve_left hsize
  have hmole : ∀ c, w.written.actors.mole = some c ↔ w.actors.mole = some c ∧ w.field.IsFloor c :=
    fun _ ↦ Layout.mole_written.trans and_comm
  -- On floor, the mole that is kept is the mole there is.
  have hkept : ∀ c, w.field.IsFloor c → (w.written.actors.mole ≠ some c ↔ w.actors.mole ≠ some c) :=
    fun c hfloor ↦ not_congr ((hmole c).trans (and_iff_left hfloor))
  obtain ⟨hboxes, htargets⟩ := Layout.pairwise_before_ofGlyphs w.field.size w.glyphAt
  refine ⟨Layout.length_bytes _, _, ofBytes_bytes hcells, Layout.field_written hcharted.complete,
    hmole, fun c ↦ ?_, fun c ↦ ?_, hboxes, htargets, Layout.bytes_written hcharted.complete⟩
  · show c ∈ w.written.actors.boxes ↔ c ∈ w.actors.boxes ∧ _ ∧ w.written.actors.mole ≠ some c
    rw [Layout.mem_boxes_written, and_comm (a := c ∈ w.actors.boxes), and_assoc]
    exact and_congr_right fun hfloor ↦ and_congr_left fun _ ↦ (hkept c hfloor).symm
  · show c ∈ w.written.targets ↔ c ∈ w.targets ∧ _ ∧ w.written.actors.mole ≠ some c
    rw [Layout.mem_targets_written, and_comm (a := c ∈ w.targets), and_assoc]
    exact and_congr_right fun hfloor ↦ and_congr_left fun _ ↦ (hkept c hfloor).symm

/-- A box and a target are put under the mole, a box on a wall, another outside of the field, and a
box before those that are there already.  What was put under the mole is gone. -/
theorem ofBytes_run_disorder :
    let inputs : List Input := [.load (.rows [['F', 'M', 'A'], ['W']]),
      .command (.setBox ⟨1, 0⟩ true), .command (.setTarget ⟨1, 0⟩ true),
      .command (.setBox ⟨0, 1⟩ true), .command (.setBox ⟨9, 9⟩ true),
      .command (.setBox ⟨0, 0⟩ true)]
    let w := (run {} inputs).1
    w.field.size ≠ {} ∧ w.bytes.length = (3 + 1) * 2 ∧
      w.actors.boxes = [⟨2, 0⟩, ⟨1, 0⟩, ⟨0, 1⟩, ⟨9, 9⟩, ⟨0, 0⟩] ∧
      ∃ reloaded, ofBytes w.bytes = .ok reloaded ∧ reloaded.field = w.field ∧
        reloaded.actors.mole = some ⟨1, 0⟩ ∧ ⟨0, 0⟩ ∈ reloaded.actors.boxes ∧
        ⟨1, 0⟩ ∉ reloaded.actors.boxes ∧ ⟨1, 0⟩ ∉ reloaded.targets ∧
        reloaded.actors.boxes.Pairwise Coord.Before ∧ reloaded.bytes = w.bytes := by
  intro inputs w
  have hsize : w.field.size ≠ {} := by decide
  obtain ⟨hlength, reloaded, hreload, hfield, hmole, hboxes, htargets, horder, -, hbytes⟩ :=
    ofBytes_run inputs hsize
  have hkept : reloaded.actors.mole = some ⟨1, 0⟩ := (hmole _).mpr ⟨by decide, by decide⟩
  refine ⟨hsize, hlength, by decide, reloaded, hreload, hfield, hkept, ?_, ?_, ?_, horder, hbytes⟩
  · exact (hboxes _).mpr ⟨by decide, by decide, by rw [hkept]; decide⟩
  · exact fun hbox ↦ ((hboxes _).mp hbox).2.2 hkept
  · exact fun htarget ↦ ((htargets _).mp htarget).2.2 hkept

end MolePuzzle.World
