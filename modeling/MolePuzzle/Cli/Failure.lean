import MolePuzzle.Catalog
import MolePuzzle.LevelFile
import MolePuzzle.Script.Error
import MolePuzzle.Settings
import MolePuzzle.ShareCode
import MolePuzzle.Text.Lines
import MolePuzzle.Validation

/-!
# Failures on the command line

What can keep a request from being carried out, and how it is reported: a message, followed by its
causes one below the other.  Several causes are numbered.
-/

set_option autoImplicit false

namespace MolePuzzle.Cli

/-- Why a request was not carried out. -/
inductive Failure where
  | settings (cause : SettingsError)
  /-- No level was chosen. -/
  | noSource
  | catalog (cause : CatalogError)
  | load (cause : LoadError)
  | script (cause : ScriptError)
  | share (cause : ShareError)
  /-- A share code holds something that is no level. -/
  | sharedLevel (cause : LevelError)
  /-- The level of this name was checked, and cannot be played. -/
  | notPlayable (name : String) (issue : Issue)
  /-- A level that cannot be played was not saved. -/
  | notSaved (issue : Issue)
  | save (cause : SaveError)
  deriving DecidableEq, Repr

namespace Failure

/-! ## Messages -/

/-- The text shown for the failure. -/
def message : Failure → String
  | settings cause => cause.message
  | noSource => "pass --level <N> or --file <FILE> to choose a level"
  | catalog cause => cause.message
  | load cause => cause.message
  | script cause => cause.message
  | share _ => "failed to decode share code"
  | sharedLevel _ => "share code does not hold a level"
  | notPlayable name _ => "level '" ++ name ++ "' is not playable"
  | notSaved issue => issue.message ++ "; pass --allow-invalid to save anyway"
  | save cause => cause.message

/-- The texts shown for what led to the failure, the nearest cause first. -/
def causes : Failure → List String
  | settings cause => cause.causes
  | noSource => []
  | catalog cause => cause.causes
  | load cause => cause.causes
  | script _ => []
  | share cause => cause.message :: cause.causes
  | sharedLevel cause => [cause.message]
  | notPlayable _ issue => [issue.message]
  | notSaved _ => []
  | save cause => cause.causes

/-! ## Reports -/

/-- A text whose lines after the first are indented by so many spaces. -/
def indentAfterFirst (spaces : Nat) (text : String) : String :=
  String.ofList (('\n' :: List.replicate spaces ' ').intercalate (Text.split '\n' text.toList))

/-- The causes on lines of their own. -/
def causeLines : List String → List String
  | [cause] => ["    " ++ indentAfterFirst 4 cause ++ "\n"]
  | causes => causes.zipIdx.map fun (cause, i) ↦
    "    " ++ toString i ++ ": " ++ indentAfterFirst 7 cause ++ "\n"

/-- The lines about the causes of a failure, if it has any. -/
def causeText (causes : List String) : String :=
  if causes.isEmpty then "" else "\nCaused by:\n" ++ String.join (causeLines causes)

/-- All that is to be said about a failure. -/
def fullReport (f : Failure) : String :=
  "Error: " ++ f.message ++ "\n" ++ causeText f.causes

/-- The report of a failure.  Where a settings file is malformed is not told: of that report only
the first line is shown, without its end.  A path with a newline in it is cut there. -/
def report : Failure → String
  | settings (.malformed path) =>
    String.ofList (Text.firstLine (fullReport (settings (.malformed path))).toList)
  | f => fullReport f

end Failure

end MolePuzzle.Cli
