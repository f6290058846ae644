/-!
# Errors in scripts

What can be wrong with the short texts in which moves, sizes and strokes of the editor are written.
-/

set_option autoImplicit false

namespace MolePuzzle

/-- Why a script cannot be read. -/
inductive ScriptError where
  /-- No move is written with this character, which has this place in the script. -/
  | unknownMove (symbol : Char) (position : Nat)
  /-- This is no size. -/
  | invalidSize (text : List Char)
  /-- This is no stroke. -/
  | invalidStroke (text : List Char)
  /-- No tool has this name. -/
  | unknownTool (name : List Char)
  deriving DecidableEq, Repr

/-- The text shown for the error. -/
def ScriptError.message : ScriptError → String
  | unknownMove symbol position =>
    "unknown move '" ++ symbol.toString ++ "' at position " ++ toString position ++
      " (expected one of U, D, L, R, z, y)"
  | invalidSize text =>
    "could not parse field size '" ++ String.ofList text ++ "' (expected WIDTHxHEIGHT)"
  | invalidStroke text =>
    "could not parse paint instruction '" ++ String.ofList text ++ "' (expected TOOL:COLUMN,ROW)"
  | unknownTool name => "unknown editor tool '" ++ String.ofList name ++ "'"

end MolePuzzle
