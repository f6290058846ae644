import MolePuzzle.World.Edit
import MolePuzzle.World.Move

/-!
# Commands

Everything that can be asked of a world, as data.  `World.apply` carries a command out: one that is
not allowed, such as a move against a wall, leaves the world as it is and tells nothing.
-/

set_option autoImplicit false

namespace MolePuzzle

/-- A request to a world. -/
inductive Command where
  | move (direction : Direction)
  | undo
  | redo
  | resize (size : Size)
  | setTerrain (cell : Coord) (terrain : Terrain)
  | setMole (cell : Option Coord)
  | setBox (cell : Coord) (present : Bool)
  | setTarget (cell : Coord) (present : Bool)
  deriving DecidableEq, Repr, Inhabited

namespace World

/-- Carries out a command. -/
def apply (w : World) : Command → World × List Event
  | .move d => (w.move? d).getD (w, [])
  | .undo => w.undo?.getD (w, [])
  | .redo => w.redo?.getD (w, [])
  | .resize s => w.resize s
  | .setTerrain c terrain => (w.setTerrain c terrain, [])
  | .setMole c => (w.setMole c, [])
  | .setBox c present => (w.setBox c present, [])
  | .setTarget c present => (w.setTarget c present, [])

/-- Carries out commands one after another, and lists all their events. -/
def applyAll (w : World) : List Command → World × List Event
  | [] => (w, [])
  | command :: rest =>
    let (next, events) := w.apply command
    let (last, later) := next.applyAll rest
    (last, events ++ later)

end World

end MolePuzzle
