import MolePuzzle.Grid.Field

/-!
# Glyphs

Level text has one glyph a cell.  A glyph tells the terrain and what stands on it: the mole, a box,
a target point, or a box on a target point.  All four stand on floor.
-/

set_option autoImplicit false

namespace MolePuzzle

/-- What level text can say about a cell. -/
inductive Glyph where
  | outside
  | wall
  | floor
  | mole
  /-- A box that is not on a target. -/
  | looseBox
  /-- A box on a target. -/
  | placedBox
  /-- A target without a box. -/
  | target
  deriving DecidableEq, Repr, Inhabited

namespace Glyph

/-- The glyphs. -/
def all : List Glyph := [.outside, .wall, .floor, .mole, .looseBox, .placedBox, .target]

/-- The character that stands for a glyph. -/
def char : Glyph → Char
  | outside => 'E'
  | wall => 'W'
  | floor => 'F'
  | mole => 'M'
  | looseBox => 'B'
  | placedBox => 'A'
  | target => 'T'

/-- The glyph a character stands for.  All but the known characters are outside the level. -/
def ofChar : Char → Glyph
  | 'W' => wall
  | 'F' => floor
  | 'M' => mole
  | 'B' => looseBox
  | 'A' => placedBox
  | 'T' => target
  | _ => outside

@[simp] theorem ofChar_char (g : Glyph) : ofChar g.char = g := by cases g <;> rfl

/-- The terrain of the cell. -/
def terrain : Glyph → Terrain
  | outside => .void
  | wall => .wall
  | _ => .floor

/-- Does a box stand on the cell? -/
def hasBox : Glyph → Bool
  | looseBox => true
  | placedBox => true
  | _ => false

/-- Is the cell a target? -/
def hasTarget : Glyph → Bool
  | placedBox => true
  | target => true
  | _ => false

end Glyph

end MolePuzzle
