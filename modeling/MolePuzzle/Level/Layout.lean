import MolePuzzle.Actors
import MolePuzzle.Level.Glyph
import MolePuzzle.Text.Lines
import MolePuzzle.Text.Utf8

/-!
# Layouts and level text

A layout is what level text describes: a field, the mole and the boxes on it, and the targets.
`Layout.text` writes one, a line a row, and `Layout.ofRows` reads one back from rows of characters.

Reading is generous.  Unknown characters and the missing ends of short rows lie outside the level,
and of several moles the last one counts.  It fails only on text without any cell, and on text too
large for the coordinates.  Writing is less so: of what stands on a cell other than floor nothing is
written, and the mole hides a target under it.
-/

set_option autoImplicit false

namespace MolePuzzle

/-- What can be wrong with level text. -/
inductive LevelError where
  /-- There is not one cell, or there are more than coordinates can tell apart. -/
  | empty
  /-- The bytes are no text; the first of them that cannot be read has this offset. -/
  | invalidText (offset : Nat)
  deriving DecidableEq, Repr, Inhabited

namespace LevelError

/-- The text shown for the error. -/
def message : LevelError → String
  | empty => "level data is empty"
  | invalidText offset =>
    "level data is not valid text (invalid byte at offset " ++ toString offset ++ ")"

end LevelError

/-- A field with everything on it. -/
structure Layout where
  /-- The terrain. -/
  field : Field := {}
  /-- The mole and the boxes. -/
  actors : Actors := {}
  /-- The cells that want a box. -/
  targets : List Coord := []
  deriving DecidableEq, Repr, Inhabited

namespace Layout

/-- Does every target hold a box?  Without targets there is nothing left to do. -/
def covered (l : Layout) : Bool := l.targets.all l.actors.hasBox

theorem covered_iff {l : Layout} : l.covered = true ↔ ∀ c ∈ l.targets, c ∈ l.actors.boxes := by
  simp [covered]

/-! ## Writing -/

/-- The glyph of a cell. -/
def glyphAt (l : Layout) (c : Coord) : Glyph :=
  match l.field.at? c with
  | none => .outside
  | some .void => .outside
  | some .wall => .wall
  | some .floor =>
    if l.actors.mole = some c then .mole
    else match l.actors.hasBox c, l.targets.contains c with
      | true, true => .placedBox
      | true, false => .looseBox
      | false, true => .target
      | false, false => .floor

/-- The glyphs of a layout, row by row. -/
def rows (l : Layout) : List (List Glyph) :=
  (List.range l.field.size.height.toNat).map fun row ↦
    (List.range l.field.size.width.toNat).map fun column ↦
      l.glyphAt ⟨UInt32.ofNat column, UInt32.ofNat row⟩

/-- The level text of a layout: every row on a line of its own. -/
def text (l : Layout) : List Char := l.rows.flatMap fun row ↦ row.map Glyph.char ++ ['\n']

/-- The level text as bytes. -/
def bytes (l : Layout) : List UInt8 := Text.Utf8.encode l.text

/-! ## Reading -/

/-- The layout with the given glyphs on the cells of a size. -/
def ofGlyphs (s : Size) (glyph : Coord → Glyph) : Layout where
  field := .ofFn s fun c ↦ (glyph c).terrain
  actors := {
    mole := (s.coords.filter fun c ↦ glyph c = .mole).getLast?
    boxes := s.coords.filter fun c ↦ (glyph c).hasBox }
  targets := s.coords.filter fun c ↦ (glyph c).hasTarget

/-- The glyph that rows of characters have on a cell. -/
def glyphOfRows (rows : Array (Array Char)) (c : Coord) : Glyph :=
  match rows[c.row.toNat]? with
  | none => .outside
  | some row => (row[c.column.toNat]?).elim .outside .ofChar

/-- The length of the longest row. -/
def widthOfRows (rows : List (List Char)) : Nat := (rows.map List.length).foldl max 0

/-- Reads rows of characters.  The layout is as wide as the longest row. -/
def ofRows (rows : List (List Char)) : Except LevelError Layout :=
  let width := widthOfRows rows
  if width = 0 ∨ UInt32.size ≤ width ∨ UInt32.size ≤ rows.length then .error .empty
  else
    let grid := (rows.map List.toArray).toArray
    .ok (ofGlyphs ⟨UInt32.ofNat width, UInt32.ofNat rows.length⟩ (glyphOfRows grid))

/-- The rows of level text given as bytes. -/
def rowsOfBytes (bytes : List UInt8) : Except LevelError (List (List Char)) :=
  match Text.Utf8.decode bytes with
  | .ok text => .ok (Text.lines text)
  | .error offset => .error (.invalidText offset)

/-- Reads level text given as bytes. -/
def ofBytes (bytes : List UInt8) : Except LevelError Layout := rowsOfBytes bytes >>= ofRows

end Layout

end MolePuzzle
