import Mathlib.Data.List.Infix
import MolePuzzle.Editor

/-!
# Runs

What can happen to a world over time, as lists of what is asked of it.

* A *script* is played: moves, taken back and made again (`World.play`).
* A *run* is made of any commands, in any order, and of levels that are loaded (`World.run`).  A
  level that cannot be read leaves the world as it is.
* A *drive* is what the editor and the player do together (`World.drive`): plays, levels, clicks of
  the editor and sizes it asks for.  An act of a drive is carried out as inputs of a run, which for
  a click depend on the size of the field and on the mole at that time.

Every script and every drive is a run.
-/

set_option autoImplicit false

namespace MolePuzzle

/-! ## Scripts -/

/-- What a player asks for. -/
inductive Play where
  | move (direction : Direction)
  | undo
  | redo
  deriving DecidableEq, Repr, Inhabited

namespace Play

/-- The command to the world. -/
def command : Play → Command
  | move d => .move d
  | undo => .undo
  | redo => .redo

/-- Is this a move, rather than a way through the history? -/
def isMove : Play → Bool
  | move _ => true
  | _ => false

end Play

/-- A command is a play or one of the edits. -/
@[elab_as_elim]
theorem Command.casesPlay {motive : Command → Prop} (play : ∀ p : Play, motive p.command)
    (resize : ∀ s, motive (.resize s)) (setTerrain : ∀ c terrain, motive (.setTerrain c terrain))
    (setMole : ∀ c, motive (.setMole c)) (setBox : ∀ c present, motive (.setBox c present))
    (setTarget : ∀ c present, motive (.setTarget c present)) (command : Command) :
    motive command := by
  cases command with
  | move d => exact play (.move d)
  | undo => exact play .undo
  | redo => exact play .redo
  | resize s => exact resize s
  | setTerrain c terrain => exact setTerrain c terrain
  | setMole c => exact setMole c
  | setBox c present => exact setBox c present
  | setTarget c present => exact setTarget c present

namespace World

/-- Plays a script. -/
def play (w : World) (script : List Play) : World × List Event :=
  w.applyAll (script.map Play.command)

/-- Does what the player asks for, if it is allowed. -/
def play? (w : World) : Play → Option (World × List Event)
  | .move d => w.move? d
  | .undo => w.undo?
  | .redo => w.redo?

theorem apply_play (w : World) (p : Play) : w.apply p.command = (w.play? p).getD (w, []) := by
  cases p <;> rfl

/-- A play that is allowed is a planned move, or a way to a neighbouring moment of the history. -/
theorem play?_cases {w : World} {p : Play} {r : World × List Event} (h : w.play? p = some r) :
    (∃ d q, p = .move d ∧ w.plan? d = some q ∧ r = w.commit q) ∨
      (∃ a history, p = .undo ∧ w.history.undo? = some (a, history) ∧
        r = w.travel countDown a history) ∨
      (∃ a history, p = .redo ∧ w.history.redo? = some (a, history) ∧
        r = w.travel countUp a history) := by
  cases p with
  | move d =>
    obtain ⟨q, hplan, rfl⟩ := Option.map_eq_some_iff.mp h
    exact .inl ⟨d, q, rfl, hplan, rfl⟩
  | undo =>
    obtain ⟨⟨a, history⟩, hundo, rfl⟩ := Option.map_eq_some_iff.mp h
    exact .inr (.inl ⟨a, history, rfl, hundo, rfl⟩)
  | redo =>
    obtain ⟨⟨a, history⟩, hredo, rfl⟩ := Option.map_eq_some_iff.mp h
    exact .inr (.inr ⟨a, history, rfl, hredo, rfl⟩)

/-- **What a play can do**: nothing, a planned move, or a way to a neighbouring moment of the
history. -/
theorem apply_play_cases (w : World) (p : Play) :
    w.apply p.command = (w, []) ∨
      (∃ d q, p = .move d ∧ w.plan? d = some q ∧ w.apply p.command = w.commit q) ∨
      (∃ a history, p = .undo ∧ w.history.undo? = some (a, history) ∧
        w.apply p.command = w.travel countDown a history) ∨
      (∃ a history, p = .redo ∧ w.history.redo? = some (a, history) ∧
        w.apply p.command = w.travel countUp a history) := by
  rw [apply_play]
  cases hp : w.play? p with
  | none => exact .inl rfl
  | some r => exact .inr (play?_cases hp)

/-- A play leaves the level itself alone. -/
theorem play_frame (w : World) (p : Play) :
    (w.apply p.command).1.field = w.field ∧ (w.apply p.command).1.floor = w.floor ∧
      (w.apply p.command).1.targets = w.targets ∧ (w.apply p.command).1.name = w.name := by
  rcases w.apply_play_cases p with h | ⟨_, _, _, _, h⟩ | ⟨_, _, _, _, h⟩ | ⟨_, _, _, _, h⟩ <;>
    rw [h] <;> exact ⟨rfl, rfl, rfl, rfl⟩

/-- What every play keeps holds to the end of a script. -/
theorem play_induction {P : World → Prop} (hstep : ∀ w (p : Play), P w → P (w.apply p.command).1)
    {w : World} (hw : P w) (script : List Play) : P (w.play script).1 := by
  induction script generalizing w with
  | nil => exact hw
  | cons p rest ih => exact ih (hstep w p hw)

/-- A script leaves the level itself alone. -/
theorem script_frame (w : World) (script : List Play) :
    (w.play script).1.field = w.field ∧ (w.play script).1.targets = w.targets := by
  refine play_induction (P := fun v ↦ v.field = w.field ∧ v.targets = w.targets) ?_ ⟨rfl, rfl⟩
    script
  intro v p hv
  obtain ⟨hfield, -, htargets, -⟩ := v.play_frame p
  rwa [hfield, htargets]

end World

/-! ## Levels -/

/-- The two forms in which a level is handed over. -/
inductive LevelSource where
  | rows (rows : List (List Char))
  | bytes (bytes : List UInt8)
  deriving DecidableEq, Repr, Inhabited

/-- The layout that a level describes. -/
def LevelSource.layout : LevelSource → Except LevelError Layout
  | rows r => Layout.ofRows r
  | bytes b => Layout.ofBytes b

namespace World

/-- Loads a level, in whatever form it comes. -/
def loadFrom (w : World) : LevelSource → Except LevelError (World × List Event)
  | .rows r => w.load r
  | .bytes b => w.loadBytes b

theorem loadFrom_eq (w : World) (level : LevelSource) :
    w.loadFrom level = level.layout.map w.install := by
  cases level <;> rfl

theorem exists_layout_of_loadFrom {w : World} {level : LevelSource} {r : World × List Event}
    (h : w.loadFrom level = .ok r) : ∃ l, level.layout = .ok l ∧ w.install l = r := by
  rw [loadFrom_eq] at h
  cases hl : level.layout with
  | error e => rw [hl] at h; cases h
  | ok l => rw [hl] at h; cases h; exact ⟨l, rfl, rfl⟩

end World

/-! ## Runs -/

/-- What a world can be asked for. -/
inductive Input where
  | command (command : Command)
  | load (level : LevelSource)
  deriving DecidableEq, Repr, Inhabited

namespace World

/-- Does what it is asked for. -/
def respond (w : World) : Input → World × List Event
  | .command c => w.apply c
  | .load level => match w.loadFrom level with
    | .ok r => r
    | .error _ => (w, [])

/-- A level that is asked for is put into play, or cannot be read and changes nothing. -/
theorem respond_load_cases (w : World) (level : LevelSource) :
    w.respond (.load level) = (w, []) ∨
      ∃ l, level.layout = .ok l ∧ w.respond (.load level) = w.install l := by
  rw [respond, loadFrom_eq]
  cases level.layout with
  | error e => exact .inl rfl
  | ok l => exact .inr ⟨l, rfl, rfl⟩

/-- Does what it is asked for, one after another, and lists all the events. -/
def run (w : World) : List Input → World × List Event
  | [] => (w, [])
  | input :: rest =>
    let (next, events) := w.respond input
    let (last, later) := next.run rest
    (last, events ++ later)

@[simp] theorem run_nil (w : World) : w.run [] = (w, []) := rfl

@[simp] theorem fst_run_cons (w : World) (input : Input) (rest : List Input) :
    (w.run (input :: rest)).1 = ((w.respond input).1.run rest).1 := rfl

theorem fst_run_append (w : World) (early late : List Input) :
    (w.run (early ++ late)).1 = ((w.run early).1.run late).1 := by
  induction early generalizing w with
  | nil => rfl
  | cons input early ih => rw [List.cons_append, fst_run_cons, ih, fst_run_cons]

theorem fst_run_concat (w : World) (early : List Input) (input : Input) :
    (w.run (early ++ [input])).1 = ((w.run early).1.respond input).1 :=
  fst_run_append w early [input]

/-- What every input keeps holds to the end of a run. -/
theorem run_induction {P : World → Prop} (hstep : ∀ w input, P w → P (w.respond input).1)
    {w : World} (hw : P w) (inputs : List Input) : P (w.run inputs).1 := by
  induction inputs generalizing w with
  | nil => exact hw
  | cons input rest ih => exact ih (hstep w input hw)

theorem applyAll_eq_run (w : World) (commands : List Command) :
    w.applyAll commands = w.run (commands.map .command) := by
  induction commands generalizing w with
  | nil => rfl
  | cons c rest ih => simp only [applyAll, run, List.map_cons, respond, ih]

theorem fst_applyAll_append (w : World) (early late : List Command) :
    (w.applyAll (early ++ late)).1 = ((w.applyAll early).1.applyAll late).1 := by
  simp only [applyAll_eq_run, List.map_append, fst_run_append]

theorem fst_applyAll_concat (w : World) (commands : List Command) (c : Command) :
    (w.applyAll (commands ++ [c])).1 = ((w.applyAll commands).1.apply c).1 :=
  w.fst_applyAll_append commands [c]

end World

/-! ## Drives -/

/-- What the player and the editor do. -/
inductive Act where
  | play (play : Play)
  | load (level : LevelSource)
  | click (editor : Editor) (click : Click)
  | resize (requested : Size)
  deriving DecidableEq, Repr

/-- What is asked of a world by an act. -/
def Act.inputs (w : World) : Act → List Input
  | play p => [.command p.command]
  | load level => [.load level]
  | click e c => (e.click c w.field.size w.actors.mole).map .command
  | resize s => (Editor.resize s).map .command

namespace World

/-- The world after an act. -/
def act (w : World) (a : Act) : World × List Event := w.run (a.inputs w)

theorem fst_act_play (w : World) (p : Play) :
    (w.act (.play p)).1 = (w.apply p.command).1 := rfl

theorem fst_act_load (w : World) (level : LevelSource) :
    (w.act (.load level)).1 = (w.respond (.load level)).1 := rfl

theorem fst_act_resize (w : World) (s : Size) :
    (w.act (.resize s)).1 = (w.resize s.clampForEditor).1 := rfl

/-- Does one act after another, and lists all the events. -/
def drive (w : World) : List Act → World × List Event
  | [] => (w, [])
  | a :: rest =>
    let (next, events) := w.act a
    let (last, later) := next.drive rest
    (last, events ++ later)

/-- What every input keeps holds to the end of a drive. -/
theorem drive_induction {P : World → Prop} (hstep : ∀ w input, P w → P (w.respond input).1)
    {w : World} (hw : P w) (acts : List Act) : P (w.drive acts).1 := by
  induction acts generalizing w with
  | nil => exact hw
  | cons a rest ih => exact ih (run_induction hstep hw (a.inputs w))

theorem fst_drive_append (w : World) (early late : List Act) :
    (w.drive (early ++ late)).1 = ((w.drive early).1.drive late).1 := by
  induction early generalizing w with
  | nil => rfl
  | cons a early ih => exact ih (w.act a).1

theorem fst_drive_concat (w : World) (early : List Act) (a : Act) :
    (w.drive (early ++ [a])).1 = ((w.drive early).1.act a).1 :=
  fst_drive_append w early [a]

end World

end MolePuzzle
