import MolePuzzle.Cli.Run

/-!
# The command line

Connects the command line to the files there are.  The places that a request can touch are looked
up, the request is carried out on the disk so found, and what has changed on it is written back.
-/

set_option autoImplicit false

namespace MolePuzzle.Cli

/-- What there is at a path, of which all but the last name are known to be directories. -/
def probe (path : Path) : IO (Option Node) := do
  match ← (IO.FS.readBinFile path.string).toBaseIO with
  | .ok bytes => return some (.file bytes.toList)
  | .error (.noFileOrDirectory _ _ _) => return none
  | .error (.inappropriateType _ _ _) => return some .directory
  | .error e => throw e

/-- Adds to a disk what there is on the way along the names, from a place that is a directory. -/
def surveyFrom (d : Disk) (place : Location) : List Name → IO Disk
  | [] => return d
  | n :: rest => do
    let .ok next := Disk.lookUp place n | return d
    if next.isGiven || d.node? next == some .directory then surveyFrom d next rest
    else match ← probe next.path with
      | none => return d
      | some .directory => surveyFrom (d.put next .directory) next rest
      | some (.file bytes) => return d.put next (.file bytes)

/-- Adds to a disk what there is on the way along a path. -/
def survey (d : Disk) (path : Path) : IO Disk :=
  match Disk.checkPath path with
  | .error _ => return d
  | .ok () => surveyFrom d (Disk.origin path) path.names

/-- The part of the real disk that a request can touch. -/
def surveyRequest (r : Request) : IO Disk := do
  let d ← r.config.toList.foldlM survey {}
  match Settings.load d r.config with
  | .error _ => return d
  | .ok settings =>
    let target := r.action.target?.map fun t ↦ (settings.resolve t.path).withLevelExtension
    (r.action.sourceFile?.toList ++ target.toList).foldlM survey d

/-- Writes what is on a disk, but was not on another. -/
def writeBack (before after : Disk) : IO Unit :=
  after.nodes.reverse.forM fun (place, node) ↦ do
    if before.node? place != some node then
      match node with
      | .directory => IO.FS.createDir place.path.string
      | .file bytes => IO.FS.writeBinFile place.path.string ⟨bytes.toArray⟩

/-- Carries out a command line, and gives its exit code. -/
def execute (args : List String) : IO UInt32 := do
  let before ← match Request.parse? (args.map String.toList) with
    | none => pure {}
    | some request => surveyRequest request
  let (outcome, after) := run before args
  writeBack before after
  (← IO.getStdout).putStr outcome.output
  (← IO.getStderr).putStr outcome.errors
  return outcome.code.toUInt32

end MolePuzzle.Cli

/-- The program. -/
def main (args : List String) : IO UInt32 := MolePuzzle.Cli.execute args
