import MolePuzzle.Disk.Basic
import MolePuzzle.Settings.Document
import MolePuzzle.Text.Utf8

/-!
# Settings

A settings file may say in which directory levels are saved, and what is to be logged.  Nothing else
may stand in it, and nothing twice.  Without a file all settings have their defaults.
-/

set_option autoImplicit false

namespace MolePuzzle

/-- What a settings file can say. -/
structure Settings where
  /-- The directory that paths for saving are relative to. -/
  levelsDir : Option Path := none
  /-- What is to be logged. -/
  logFilter : Option (List Char) := none
  deriving DecidableEq, Repr

instance : Inhabited Settings := ⟨{}⟩

/-- Why a settings file cannot be used. -/
inductive SettingsError where
  /-- There is no file to be read at the path. -/
  | unreadable (path : Path) (cause : Refusal)
  /-- The file is no text. -/
  | notText (path : Path)
  /-- The text is no settings document, or has entries it should not have. -/
  | malformed (path : Path)
  deriving DecidableEq, Repr, Inhabited

namespace SettingsError

/-- The text shown for the error. -/
def message : SettingsError → String
  | unreadable path _ => "failed to read config file " ++ path.string
  | notText path => "failed to read config file " ++ path.string
  | malformed path => "failed to parse config file " ++ path.string

/-- The texts shown for what led to the error. -/
def causes : SettingsError → List String
  | unreadable _ cause => [cause.message]
  | notText _ => ["stream did not contain valid UTF-8"]
  | malformed _ => []

end SettingsError

namespace Settings

/-- What is logged if the settings do not say. -/
def defaultLogFilter : List Char := ['w', 'a', 'r', 'n']

/-- What is to be logged. -/
def effectiveLogFilter (s : Settings) : List Char := s.logFilter.getD defaultLogFilter

/-- The path under which something is saved. -/
def resolve (s : Settings) (p : Path) : Path :=
  match s.levelsDir with
  | none => p
  | some dir => dir.join p

/-- Adds an entry of a settings document, if it is known and new. -/
def addEntry (s : Settings) (entry : List Char × List Char) : Option Settings :=
  if entry.1 = "levels_dir".toList ∧ s.levelsDir = none then
    some { s with levelsDir := some ⟨entry.2⟩ }
  else if entry.1 = "log_filter".toList ∧ s.logFilter = none then
    some { s with logFilter := some entry.2 }
  else none

/-- The settings that a document makes. -/
def ofText? (text : List Char) : Option Settings := do
  let entries ← Document.entries? text
  entries.foldlM addEntry {}

/-- Reads the settings file at a path.  A file that is not there says nothing. -/
def load (d : Disk) : Option Path → Except SettingsError Settings
  | none => .ok {}
  | some path =>
    if d.at? path = none then .ok {}
    else match d.read path with
      | .error cause => .error (.unreadable path cause)
      | .ok bytes =>
        match Text.Utf8.decode bytes with
        | .error _ => .error (.notText path)
        | .ok text =>
          match ofText? text with
          | none => .error (.malformed path)
          | some s => .ok s

end Settings

end MolePuzzle
