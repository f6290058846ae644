import MolePuzzle.World.Basic

/-!
# The catalog

The levels that come with the game.  They are numbered from one, and a level opened from the catalog
bears its number as its name.
-/

set_option autoImplicit false

namespace MolePuzzle

/-- Why a level of the catalog cannot be opened. -/
inductive CatalogError where
  /-- The catalog has no level of this number. -/
  | unknownLevel (number count : Nat)
  /-- The level of this number is there, but its text is no level. -/
  | malformed (number : Nat) (cause : LevelError)
  deriving DecidableEq, Repr, Inhabited

namespace CatalogError

/-- The text shown for the error. -/
def message : CatalogError → String
  | unknownLevel number count =>
    "no predefined level " ++ toString number ++ " (levels are numbered 1 to " ++
      toString count ++ ")"
  | malformed number _ => "predefined level " ++ toString number ++ " is malformed"

/-- The texts shown for what led to the error. -/
def causes : CatalogError → List String
  | unknownLevel _ _ => []
  | malformed _ cause => [cause.message]

end CatalogError

namespace Catalog

/-- One push along a corridor. -/
def corridor : String := "WWWWWW\nWMFBTW\nWWWWWW\n"

/-- Two boxes in a round room with two targets between them. -/
def roundRoom : String := "EWWWWWE\nWWFFFWW\nWFFBFFW\nWFTFTFW\nWFFBFFW\nWWFMFWW\nEWWWWWE\n"

/-- Two boxes and a target in either corner. -/
def corners : String := "WWWWWWW\nWTFFFTW\nWFBFBFW\nWFFMFFW\nWWWWWWW\n"

/-- The texts of the levels. -/
def texts : List String := [corridor, roundRoom, corners]

/-- Number of levels. -/
def count : Nat := texts.length

/-- The numbers of the levels. -/
def numbers : List Nat := List.range' 1 count

/-- The text of the level with the given number. -/
def text? : Nat → Option String
  | 0 => none
  | i + 1 => texts[i]?

/-- Is there a level with the given number? -/
def has (number : Nat) : Bool := (text? number).isSome

/-- Opens the level with the given number. -/
def load (number : Nat) : Except CatalogError World :=
  match text? number with
  | none => .error (.unknownLevel number count)
  | some text =>
    match World.ofBytes (Text.Utf8.encode text.toList) with
    | .error cause => .error (.malformed number cause)
    | .ok w => .ok { w with name := toString number }

end Catalog

end MolePuzzle
