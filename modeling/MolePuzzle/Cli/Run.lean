import MolePuzzle.Cli.Failure
import MolePuzzle.Cli.Request
import MolePuzzle.Notifier
import MolePuzzle.Script.Moves
import MolePuzzle.Script.Stroke

/-!
# Carrying out requests

`run` takes the arguments of a command line and a disk, and gives what is shown and the disk after
it.  A request is carried out step by step, and each step can print, save a level, or fail
(`Job`).  A step that fails ends the request, and what was printed and saved before it stays: an
outcome that is a failure carries the text printed until then.
-/

set_option autoImplicit false

namespace MolePuzzle.Cli

/-! ## Choosing a level -/

/-- Opens the level of a source, if one is chosen. -/
def openOptional (d : Disk) : Source → Except Failure (Option World)
  | .unspecified => .ok none
  | .catalog number => ((Catalog.load number).map some).mapError .catalog
  | .file path => ((LevelFile.load d path).map some).mapError .load

/-- Opens the level of a source. -/
def openLevel (d : Disk) (source : Source) : Except Failure World := do
  match ← openOptional d source with
  | some w => return w
  | none => throw .noSource

/-- The level text of a world. -/
def levelText (w : World) : String := String.ofList w.text

/-! ## Playing -/

/-- A notifier that keeps the count of steps at which the level was last solved. -/
def solvedNotifier : Notifier (StateM (Option Nat)) :=
  Notifier.onSolved {} fun steps ↦ set (some steps)

/-- Carries out commands, and keeps the count of steps at which the level was last solved. -/
def playAll (w : World) (solvedAt : Option Nat) : List Command → World × Option Nat
  | [] => (w, solvedAt)
  | command :: rest =>
    let (next, events) := w.apply command
    let (_, solvedAt) := (solvedNotifier.dispatch events).run solvedAt
    playAll next solvedAt rest

/-- How a game ended.  The count of steps is told if the level was solved in the course of it. -/
def verdict (w : World) (solvedAt : Option Nat) : String :=
  match w.won, solvedAt with
  | true, some steps => "solved in " ++ toString steps ++ " steps\n"
  | true, none => "solved\n"
  | false, _ => "not solved\n"

/-- What is shown of a game: the level at the end, the counters, and how it ended. -/
def playReport (w : World) (commands : List Command) : String :=
  let (w, solvedAt) := playAll w none commands
  levelText w ++ "steps: " ++ toString w.steps ++ ", pushes: " ++ toString w.pushes ++ "\n" ++
    verdict w solvedAt

/-! ## Editing -/

/-- A blank field of the size the editor starts with. -/
def blankWorld : World := (World.applyAll {} (Editor.resize Editor.defaultSize)).1

/-- Gives the field the size that is written in a text, if there is one. -/
def resizeTo (w : World) : Option (List Char) → Except Failure World
  | none => .ok w
  | some text => do
    let size ← (Script.size text).mapError .script
    return (w.applyAll (Editor.resize size)).1

/-- Applies a tool to a cell. -/
def paintStroke (w : World) (stroke : Stroke) : World :=
  let editor : Editor := { tool := stroke.tool }
  let click : Click := { cell := some stroke.cell }
  (w.applyAll (editor.click click w.field.size w.actors.mole)).1

/-- Reads strokes and applies them, one after another. -/
def paintStrokes (w : World) : List (List Char) → Except Failure World
  | [] => .ok w
  | text :: rest => do
    let stroke ← (Script.stroke text).mapError .script
    paintStrokes (paintStroke w stroke) rest

/-- The level of a source, or a blank one, after it has been edited. -/
def editLevel (d : Disk) (source : Source) (resize : Option (List Char))
    (strokes : List (List Char)) : Except Failure World := do
  let w := (← openOptional d source).getD blankWorld
  paintStrokes (← resizeTo w resize) strokes

/-! ## Steps -/

/-- What a request works on: the disk, and what has been printed. -/
structure Shell where
  disk : Disk
  printed : String := ""
  deriving Repr

/-- A piece of work that can fail.  What it has done by then stays done. -/
abbrev Job := ExceptT Failure (StateM Shell)

/-- Prints a text. -/
def print (text : String) : Job Unit :=
  modify fun sh ↦ { sh with printed := sh.printed ++ text }

/-- Works on the disk.  If this fails, what it has changed is not taken back. -/
def onDisk {α : Type} (work : Disk → Disk × Except Failure α) : Job α :=
  ExceptT.mk (modifyGet fun sh ↦
    let (d, result) := work sh.disk
    (result, { sh with disk := d }))

/-- Finds something out from the disk, and leaves it as it is. -/
def consult {α : Type} (find : Disk → Except Failure α) : Job α := onDisk fun d ↦ (d, find d)

/-- Saves a level, and prints the path of its file. -/
def saveLevel (settings : Settings) (w : World) (target : Target) : Job Unit := do
  let written ← onDisk fun d ↦
    let (d, written) := LevelFile.save d (settings.resolve target.path) w.bytes target.overwrite
    (d, written.mapError .save)
  print ("saved " ++ written.string ++ "\n")

/-! ## Carrying out actions -/

/-- Refuses a level that cannot be played, unless saving it is allowed all the same. -/
def checkLevel (w : World) (target : Target) : Except Failure Unit :=
  match w.validate, target.allowInvalid with
  | .error issue, false => .error (.notSaved issue)
  | _, _ => .ok ()

/-- The line about a level of the catalog. -/
def catalogLine (number : Nat) (w : World) : String :=
  toString number ++ ": " ++ String.ofList w.field.size.text ++ ", " ++
    toString w.actors.boxes.length ++ " boxes\n"

/-- Saves a level, if it may be saved as it is. -/
def saveChecked (settings : Settings) (w : World) (target : Target) : Job Unit := do
  ofExcept (checkLevel w target)
  saveLevel settings w target

/-- Prints the lines about the levels of the catalog, each when its level has been opened. -/
def listLevels : Job Unit :=
  Catalog.numbers.forM fun number ↦ do
    let w ← ofExcept ((Catalog.load number).mapError .catalog)
    print (catalogLine number w)

/-- Carries out an action. -/
def Action.perform (settings : Settings) : Action → Job Unit
  | play source moves => do
    let w ← consult (openLevel · source)
    let commands ← ofExcept ((Script.moves moves).mapError .script)
    print (playReport w commands)
  | display source => do
    let w ← consult (openLevel · source)
    print (levelText w)
  | save source target => do
    let w ← consult (openLevel · source)
    saveChecked settings w target
  | share source => do
    let w ← consult (openLevel · source)
    print (String.ofList (ShareCode.encode ⟨w.field.size, w.bytes⟩) ++ "\n")
  | unshare code target => do
    let shared ← ofExcept ((ShareCode.decode code).mapError .share)
    let w ← ofExcept ((World.ofBytes shared.bytes).mapError .sharedLevel)
    match target with
    | some target => saveLevel settings w target
    | none => print (levelText w)
  | validate source => do
    let w ← consult (openLevel · source)
    ofExcept (w.validate.mapError (.notPlayable w.name))
    print ("level '" ++ w.name ++ "' is playable\n")
  | levels => listLevels
  | edit source resize strokes target => do
    let w ← consult (editLevel · source resize strokes)
    match target with
    | some target => saveChecked settings w target
    | none => print (levelText w)

/-- Carries out a request: the settings are read before anything else. -/
def Request.perform (r : Request) : Job Unit := do
  let settings ← consult fun d ↦ (Settings.load d r.config).mapError .settings
  r.action.perform settings

/-! ## Outcomes -/

/-- How a command line comes out. -/
inductive Outcome where
  /-- The request was carried out, and this was printed. -/
  | printed (text : String)
  /-- The request could not be carried out to its end, and this was printed `before` it failed. -/
  | failed (failure : Failure) (before : String)
  /-- The arguments make no request. -/
  | misused
  deriving DecidableEq, Repr

namespace Outcome

/-- The exit code. -/
def code : Outcome → UInt8
  | printed _ => 0
  | failed _ _ => 1
  | misused => 2

/-- What is printed. -/
def output : Outcome → String
  | printed text => text
  | failed _ before => before
  | misused => ""

/-- What is reported as an error. -/
def errors : Outcome → String
  | printed _ => ""
  | failed failure _ => failure.report
  | misused =>
    "usage: [--config FILE] play|show|save|share|unshare|validate|levels|edit [OPTION]...\n"

end Outcome

/-- Does a piece of work on a disk, with nothing printed yet. -/
def Job.outcome (job : Job Unit) (d : Disk) : Outcome × Disk :=
  match job.run.run { disk := d } with
  | (.ok (), sh) => (.printed sh.printed, sh.disk)
  | (.error failure, sh) => (.failed failure sh.printed, sh.disk)

/-- Carries out a request. -/
def Request.run (r : Request) (d : Disk) : Outcome × Disk := r.perform.outcome d

/-- Carries out a command line. -/
def run (d : Disk) (args : List String) : Outcome × Disk :=
  match Request.parse? (args.map String.toList) with
  | none => (.misused, d)
  | some request => request.run d

end MolePuzzle.Cli
