import MolePuzzle.Proofs.Edit
import MolePuzzle.Proofs.Run

/-!
# Loading forgets the past

A level that is loaded takes the place of everything in a world but its name, or it cannot be read
and changes nothing.  Which of the two it is depends on the level alone, and so does all that
happens afterwards: `World.loadFrom_forgets` compares two worlds that load the same level, whatever
has happened in them before, and finds no difference between them from then on, in what they hold,
in what they allow and in what they tell.

The name makes no difference because nothing that can be asked of a world looks at it
(`World.run_named`).
-/

set_option autoImplicit false

namespace MolePuzzle.World

/-! ## The name is no part of the game -/

/-- The world under another name. -/
def named (w : World) (name : String) : World := { w with name := name }

/-- Whether a play is allowed, and what comes of it, has nothing to do with the name. -/
theorem play?_named (w : World) (name : String) (p : Play) :
    (w.named name).play? p = (w.play? p).map fun r ↦ (r.1.named name, r.2) := by
  cases p with
  | move d =>
    have hplan : (w.named name).plan? d = w.plan? d := rfl
    rw [play?, play?, move?, move?, hplan, Option.map_map]
    rfl
  | undo =>
    rw [play?, play?, undo?, undo?, Option.map_map]
    rfl
  | redo =>
    rw [play?, play?, redo?, redo?, Option.map_map]
    rfl

theorem apply_named (w : World) (name : String) (c : Command) :
    (w.named name).apply c = ((w.apply c).1.named name, (w.apply c).2) := by
  induction c using Command.casesPlay with
  | play p =>
    rw [apply_play, apply_play, play?_named]
    cases w.play? p <;> rfl
  | resize s =>
    rw [apply, apply]
    refine Prod.ext ?_ ?_
    · rw [resize_eq, resize_eq]
      rfl
    · rw [snd_resize, snd_resize]
      rfl
  | setTerrain c terrain =>
    simp only [apply, setTerrain, named]
    cases w.field.at? c with
    | none => rfl
    | some old =>
      by_cases hold : old = terrain
      · simp only [if_pos hold]
      · simp only [if_neg hold]
        rfl
  | setMole c =>
    rw [apply, apply, setMole_eq, setMole_eq]
    rfl
  | setBox c present =>
    rw [apply, apply, setBox_eq, setBox_eq]
    rfl
  | setTarget c present => rfl

/-- **No input looks at the name of a world.** -/
theorem respond_named (w : World) (name : String) (input : Input) :
    (w.named name).respond input = ((w.respond input).1.named name, (w.respond input).2) := by
  cases input with
  | command c => exact w.apply_named name c
  | load level =>
    rw [respond, respond, loadFrom_eq, loadFrom_eq]
    cases level.layout <;> rfl

/-- Worlds that differ in the name only have the same runs. -/
theorem run_named (w : World) (name : String) (inputs : List Input) :
    (w.named name).run inputs = ((w.run inputs).1.named name, (w.run inputs).2) := by
  induction inputs generalizing w with
  | nil => rfl
  | cons input rest ih => simp only [run, respond_named, ih]

/-! ## Loading a level -/

/-- A level takes the place of everything but the name. -/
theorem fst_install_eq_named (w w' : World) (l : Layout) :
    (w.install l).1 = (w'.install l).1.named w.name := rfl

/-- **Loading is all or nothing, and forgets the past.**  Let a level be loaded in two worlds,
whatever they are.

* If it cannot be read in one of them, it cannot be read in the other for the same reason, and the
  world stays as it is and tells nothing.
* If it is loaded in one of them, it is loaded in the other.  The first keeps its name and tells of
  the new size, if it is another one, and then of the level.  From then on the worlds are the same
  but for the name: after any inputs, they are in the same state, have told the same and allow the
  same plays. -/
theorem loadFrom_forgets (level : LevelSource) (w w' : World) :
    (∀ e, w.loadFrom level = .error e →
      w'.loadFrom level = .error e ∧ w.respond (.load level) = (w, [])) ∧
    ∀ v events, w.loadFrom level = .ok (v, events) →
      v.name = w.name ∧ w.respond (.load level) = (v, events) ∧
      events = (if w.field.size = v.field.size then []
        else [.fieldResized w.field.size v.field.size]) ++ [.levelLoaded v.field.size] ∧
      ∃ v' events', w'.loadFrom level = .ok (v', events') ∧ v = v'.named w.name ∧
        ∀ later : List Input,
          (v.run later).1 = (v'.run later).1.named w.name ∧ (v.run later).2 = (v'.run later).2 ∧
          ∀ p, ((v.run later).1.play? p).isSome = ((v'.run later).1.play? p).isSome := by
  rw [respond, loadFrom_eq, loadFrom_eq]
  cases level.layout with
  | error reason =>
    refine ⟨fun e he ↦ ⟨?_, rfl⟩, fun v events hok ↦ ?_⟩
    · cases he
      rfl
    · cases hok
  | ok l =>
    refine ⟨fun e he ↦ ?_, fun v events hok ↦ ?_⟩
    · cases he
    obtain rfl : (w.install l).1 = v := congrArg Prod.fst (Except.ok.inj hok)
    obtain rfl : (w.install l).2 = events := congrArg Prod.snd (Except.ok.inj hok)
    refine ⟨rfl, rfl, rfl, (w'.install l).1, _, rfl, fst_install_eq_named w w' l, fun later ↦ ?_⟩
    have hrun := (w'.install l).1.run_named w.name later
    rw [← fst_install_eq_named w w' l] at hrun
    rw [hrun]
    refine ⟨rfl, rfl, fun p ↦ ?_⟩
    rw [play?_named, Option.isSome_map]

/-- A game in which a push has been taken back gives way to another level, and so does a world
without a field.  Rows without cells leave the game as it is. -/
theorem loadFrom_forgets_corridor :
    let inputs : List Input := [.load (.rows [['M', 'B', 'F', 'T']]), .command (.move .right),
      .command (.move .right), .command .undo]
    let w := (run {} inputs).1.named "played"
    let w' : World := ({} : World).named "new"
    let level : LevelSource := .rows [['M', 'F', 'B']]
    (w.loadFrom (.rows [[]]) = .error .empty ∧ w'.loadFrom (.rows [[]]) = .error .empty ∧
      w.respond (.load (.rows [[]])) = (w, [])) ∧
    ∃ v v' events', w.loadFrom level =
        .ok (v, [.fieldResized ⟨4, 1⟩ ⟨3, 1⟩, .levelLoaded ⟨3, 1⟩]) ∧
      v.name = "played" ∧ w'.loadFrom level = .ok (v', events') ∧ v = v'.named "played" ∧
      ∀ later : List Input,
        (v.run later).1 = (v'.run later).1.named "played" ∧ (v.run later).2 = (v'.run later).2 ∧
        ∀ p, ((v.run later).1.play? p).isSome = ((v'.run later).1.play? p).isSome := by
  intro inputs w w' level
  have hrows : w.loadFrom (.rows [[]]) = .error .empty := rfl
  have hload : w.loadFrom level =
      .ok (_, [.fieldResized ⟨4, 1⟩ ⟨3, 1⟩, .levelLoaded ⟨3, 1⟩]) := rfl
  obtain ⟨hfailed, hkept⟩ := (loadFrom_forgets (.rows [[]]) w w').1 _ hrows
  obtain ⟨hname, -, -, v', events', hload', hsame, hlater⟩ :=
    (loadFrom_forgets level w w').2 _ _ hload
  exact ⟨⟨hrows, hfailed, hkept⟩, _, v', events', hload, hname, hload', hsame, hlater⟩

end MolePuzzle.World
