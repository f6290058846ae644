import MolePuzzle.Text.Split

/-!
# Lines of a text

Every newline ends a line, and a carriage return just before it belongs to the line end.  What
stands after the last newline is a line of its own, kept as it is, unless it is empty.
-/

set_option autoImplicit false

namespace MolePuzzle.Text

/-- A line without the carriage return that closes it. -/
def dropReturn (line : List Char) : List Char :=
  if line.getLast? = some '\r' then line.dropLast else line

/-- The lines of a text, without their ends. -/
def lines (text : List Char) : List (List Char) :=
  let pieces := split '\n' text
  let rest := pieces.getLast?.getD []
  pieces.dropLast.map dropReturn ++ if rest.isEmpty then [] else [rest]

/-- The first line of a text, without its end. -/
def firstLine (text : List Char) : List Char := (lines text).headD []

end MolePuzzle.Text
