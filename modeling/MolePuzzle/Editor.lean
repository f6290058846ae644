import MolePuzzle.World.Command

/-!
# The editor

The editor turns clicks into commands.  A click paints the selected tool onto one cell: it sets the
terrain, and says of the box and of the target whether they are there, so nothing of what was on the
cell shows through.  The mole is one for the whole field.  The mole tool brings it to the cell, the
floor tool lets it stand, and every other tool takes it away from the cell it paints.

The editor works on fields of limited size only, and clamps the sizes it asks for.
-/

set_option autoImplicit false

namespace MolePuzzle

/-! ## Tools -/

/-- What a click paints. -/
inductive Tool where
  | mole
  /-- A box on a target. -/
  | placedBox
  /-- A box that is not on a target. -/
  | looseBox
  /-- A target without a box. -/
  | target
  | wall
  | floor
  /-- Paints the outside of the level. -/
  | eraser
  deriving DecidableEq, Repr, Inhabited

namespace Tool

/-- The terrain a tool paints. -/
def terrain : Tool → Terrain
  | wall => .wall
  | eraser => .void
  | _ => .floor

/-- Does the tool paint a box? -/
def hasBox : Tool → Bool
  | placedBox => true
  | looseBox => true
  | _ => false

/-- Does the tool paint a target? -/
def hasTarget : Tool → Bool
  | placedBox => true
  | target => true
  | _ => false

end Tool

/-! ## Sizes the editor supports -/

/-- The most columns and the most rows of an edited field. -/
def Editor.maxSize : Size := ⟨40, 40⟩

/-- The size of a field that is edited from nothing. -/
def Editor.defaultSize : Size := ⟨25, 15⟩

/-- The nearest size the editor supports: at least one row and one column, and no more than the
most. -/
def Size.clampForEditor (s : Size) : Size where
  width := min (max s.width 1) Editor.maxSize.width
  height := min (max s.height 1) Editor.maxSize.height

/-! ## Clicks -/

/-- A click of the pointer. -/
structure Click where
  /-- The cell under the pointer, if there is one. -/
  cell : Option Coord := none
  /-- Is this a click that erases, whatever tool is selected? -/
  erase : Bool := false
  deriving DecidableEq, Repr, Inhabited

/-- An editor with its selected tool. -/
structure Editor where
  /-- The selected tool. -/
  tool : Tool := .eraser
  deriving DecidableEq, Repr

instance : Inhabited Editor := ⟨{}⟩

namespace Editor

/-- The tool that a click applies. -/
def toolFor (e : Editor) (click : Click) : Tool := if click.erase then .eraser else e.tool

/-- The commands about the mole when a tool paints a cell. -/
def moleCommands (tool : Tool) (cell : Coord) (mole : Option Coord) : List Command :=
  match tool with
  | .mole => [.setMole (some cell)]
  | .floor => []
  | _ => if mole = some cell then [.setMole none] else []

/-- The commands that paint a tool onto a cell. -/
def paint (tool : Tool) (cell : Coord) (mole : Option Coord) : List Command :=
  [.setTerrain cell tool.terrain, .setTarget cell tool.hasTarget, .setBox cell tool.hasBox] ++
    moleCommands tool cell mole

/-- The commands for a click on a field of the given size, on which the mole is as given.  A click
beside the field asks for nothing. -/
def click (e : Editor) (click : Click) (size : Size) (mole : Option Coord) : List Command :=
  match click.cell with
  | none => []
  | some cell => if cell ∈ size then paint (e.toolFor click) cell mole else []

/-- The commands that give the field another size. -/
def resize (requested : Size) : List Command := [.resize requested.clampForEditor]

end Editor

end MolePuzzle
