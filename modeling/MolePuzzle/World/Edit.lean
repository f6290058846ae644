import MolePuzzle.World.Basic

/-!
# Editing

The terrain, the mole, the boxes and the targets of a world can be set cell by cell, and its field
can be resized.  Past moments are of no use once the terrain or the actors have been edited, so an
edit that changes either starts the history afresh; the counters stay.

Boxes and targets may be set on any cell.  That they are set only where they can stand is up to the
editor.
-/

set_option autoImplicit false

namespace MolePuzzle.World

/-- Gives the field another size.  What then stands outside of it is taken away. -/
def resize (w : World) (s : Size) : World × List Event :=
  let field := w.field.setSize s
  let layout : Layout := {
    field := field
    actors := {
      mole := w.actors.mole.filter (· ∈ field.size)
      boxes := w.actors.boxes.filter (· ∈ field.size) }
    targets := w.targets.filter (· ∈ field.size) }
  let resized := { w with
    toLayout := layout
    floor := field.cellsOf .floor
    won := layout.covered }
  if w.field.size = field.size then (resized, [])
  else (resized.restartHistory, [.fieldResized w.field.size field.size])

/-- Sets the terrain of a cell of the field.  Setting what is there already is no edit. -/
def setTerrain (w : World) (c : Coord) (terrain : Terrain) : World :=
  match w.field.at? c with
  | none => w
  | some old =>
    if old = terrain then w
    else
      let floor :=
        if terrain = .floor then (CellSet.add w.floor c).2 else (CellSet.remove w.floor c).2
      restartHistory { w with field := (w.field.set c terrain).2, floor := floor }

/-- Puts the mole on a cell, or takes it away. -/
def setMole (w : World) (c : Option Coord) : World :=
  if w.actors.mole = c then w
  else restartHistory { w with actors := { w.actors with mole := c } }

/-- The list with or without a cell.  A cell that is new comes last. -/
def withCell (cells : List Coord) (c : Coord) (present : Bool) : List Coord :=
  if cells.contains c = present then cells
  else if present then cells ++ [c]
  else cells.filter (· ≠ c)

theorem mem_withCell {cells : List Coord} {c e : Coord} {present : Bool} :
    e ∈ withCell cells c present ↔ if e = c then present = true else e ∈ cells := by
  unfold withCell
  split
  · rename_i h
    by_cases he : e = c
    · subst he
      simp [← h]
    · simp [he]
  · cases present <;> by_cases he : e = c <;> simp_all

/-- Puts a box on a cell, or takes it away. -/
def setBox (w : World) (c : Coord) (present : Bool) : World :=
  let edited :=
    if w.actors.hasBox c = present then w
    else restartHistory { w with
      actors := { w.actors with boxes := withCell w.actors.boxes c present } }
  { edited with won := edited.covered }

/-- Makes a cell a target, or no longer one. -/
def setTarget (w : World) (c : Coord) (present : Bool) : World :=
  let edited := { w with targets := withCell w.targets c present }
  { edited with won := edited.covered }

end MolePuzzle.World
