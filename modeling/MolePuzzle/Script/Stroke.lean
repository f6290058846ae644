import MolePuzzle.Editor
import MolePuzzle.Script.Dimensions

/-!
# Strokes of the editor

A stroke names a tool and the cell it is applied to, as in `wall:3,4`: the tool's name, a colon, the
column, a comma and the row.  White space may surround each of the three parts, and the name may be
in any case.
-/

set_option autoImplicit false

namespace MolePuzzle

/-- One application of a tool. -/
structure Stroke where
  /-- The tool. -/
  tool : Tool
  /-- The cell it is applied to. -/
  cell : Coord
  deriving DecidableEq, Repr, Inhabited

namespace Script

/-- The names of the tools.  Some have two. -/
def toolNames : List (String × Tool) :=
  [("mole", .mole), ("active-box", .placedBox), ("placed-box", .placedBox), ("box", .looseBox),
   ("inactive-box", .looseBox), ("target", .target), ("wall", .wall), ("floor", .floor),
   ("empty", .eraser), ("erase", .eraser)]

/-- The tool of the given name.  Only the letters A to Z have a case here. -/
def tool? (name : List Char) : Option Tool :=
  (toolNames.find? fun entry ↦ entry.1.toList == name.map Char.toLower).map Prod.snd

/-- The parts of a stroke, its tool given by name. -/
def strokeParts? (text : List Char) : Option (List Char × Coord) := do
  let (name, cell) ← Text.cut? (· == ':') text
  let (column, row) ← Text.cut? (· == ',') cell
  let column ← Text.word? (Text.trim column)
  let row ← Text.word? (Text.trim row)
  pure (Text.trim name, ⟨column, row⟩)

/-- Reads a stroke.  The name of the tool is looked at last. -/
def stroke (text : List Char) : Except ScriptError Stroke :=
  match strokeParts? text with
  | none => .error (.invalidStroke text)
  | some (name, cell) =>
    match tool? name with
    | none => .error (.unknownTool name)
    | some tool => .ok ⟨tool, cell⟩

end Script

end MolePuzzle
