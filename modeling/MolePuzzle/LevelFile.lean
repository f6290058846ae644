import MolePuzzle.Disk.Basic
import MolePuzzle.World.Basic

/-!
# Level files

Levels are kept in files that hold their text.  A level read from a file is named after it.  When a
level is written, the directory for it is made if need be, and a file that is there already is
replaced only on request.
-/

set_option autoImplicit false

namespace MolePuzzle

/-- Why a level file cannot be read. -/
inductive LoadError where
  /-- There is no file to be read at the path. -/
  | unreadable (path : Path) (cause : Refusal)
  /-- What the file holds is no level. -/
  | undecodable (path : Path) (cause : LevelError)
  deriving DecidableEq, Repr, Inhabited

namespace LoadError

/-- The text shown for the error. -/
def message : LoadError → String
  | unreadable path _ => "failed to read level file " ++ path.string
  | undecodable path _ => "failed to decode level file " ++ path.string

/-- The texts shown for what led to the error. -/
def causes : LoadError → List String
  | unreadable _ cause => [cause.message]
  | undecodable _ cause => [cause.message]

end LoadError

/-- Why a level file cannot be written. -/
inductive SaveError where
  /-- There is no directory at the path, and none can be made. -/
  | noDirectory (path : Path) (cause : Refusal)
  /-- The path is taken, and replacing what is there was not asked for. -/
  | taken (path : Path)
  /-- No file can be made at the path. -/
  | notCreated (path : Path) (cause : Refusal)
  deriving DecidableEq, Repr, Inhabited

namespace SaveError

/-- The text shown for the error. -/
def message : SaveError → String
  | noDirectory path _ => "failed to create directory " ++ path.string
  | taken path => path.string ++ " already exists; pass --force to overwrite it"
  | notCreated path _ => "failed to create " ++ path.string

/-- The texts shown for what led to the error. -/
def causes : SaveError → List String
  | noDirectory _ cause => [cause.message]
  | taken _ => []
  | notCreated _ cause => [cause.message]

end SaveError

namespace LevelFile

/-- Reads the level in a file. -/
def load (d : Disk) (path : Path) : Except LoadError World :=
  match d.read path with
  | .error cause => .error (.unreadable path cause)
  | .ok bytes =>
    match World.ofBytes bytes with
    | .error cause => .error (.undecodable path cause)
    | .ok w =>
      match path.stem? with
      | none => .ok w
      | some stem => .ok { w with name := String.ofList stem }

/-- Makes the directory that a file at the path lies in.  The working directory needs no making. -/
def prepare (d : Disk) (path : Path) : Disk × Except SaveError Unit :=
  match path.parent? with
  | none => (d, .ok ())
  | some parent =>
    if parent.chars.isEmpty then (d, .ok ())
    else
      let (d, made) := d.makeAll parent
      (d, made.mapError (.noDirectory parent))

/-- Writes the file at a path that has the extension. -/
def writeAt (d : Disk) (path : Path) (bytes : List UInt8) (overwrite : Bool) :
    Disk × Except SaveError Path :=
  match d.write path bytes overwrite with
  | .ok d => (d, .ok path)
  | .error .alreadyExists => (d, .error (.taken path))
  | .error cause => (d, .error (.notCreated path cause))

/-- Writes the text of a level, and tells the path of the file: it has the extension of level
files. -/
def save (d : Disk) (path : Path) (bytes : List UInt8) (overwrite : Bool) :
    Disk × Except SaveError Path :=
  let path := path.withLevelExtension
  match prepare d path with
  | (d, .error e) => (d, .error e)
  | (d, .ok ()) => writeAt d path bytes overwrite

end LevelFile

end MolePuzzle
