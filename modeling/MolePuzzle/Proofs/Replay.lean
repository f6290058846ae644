import MolePuzzle.Proofs.Moves
import MolePuzzle.Proofs.Run
import MolePuzzle.Proofs.Timeline

/-!
# Undo and redo agree with replay

A player who takes moves back and makes them again is, at any time, where the moves that are in
force lead when they are played straight from the start.  `Track` keeps books of these moves and of
those that have been taken back, with nothing of a world but the answer whether a move is allowed.
The main statement `World.play_eq_replay` is that a script leaves a world that agrees with the
replay in everything but its past and future, and that these exist just when the books say so.

`World.present` is what the two worlds have in common.  It is all that a move depends on
(`World.present_travel`), and going forth and back again restores it
(`World.present_travel_back`) as long as no counter has reached its end.  The history enters through
`Follows.history` alone: its past are the moments along the moves in force, and its future those
along the moves taken back.
-/

set_option autoImplicit false

namespace MolePuzzle

namespace World

/-! ## The present of a world -/

/-- The world without its past and future, and without the name of its level. -/
def present (w : World) : World := { w with history := {}, name := "" }

variable {u v w : World} {d : Direction}

theorem present_eq_iff : w.present = v.present ↔ w.toLayout = v.toLayout ∧ w.floor = v.floor ∧
    w.steps = v.steps ∧ w.pushes = v.pushes ∧ w.won = v.won := by
  simp [present]

theorem canMove_congr (h : w.present = v.present) (d : Direction) : w.canMove d = v.canMove d := by
  show w.present.canMove d = v.present.canMove d
  rw [h]

theorem present_travel (h : w.present = v.present) (count : Nat → Nat) (a : Actors)
    (history history' : History) :
    (w.travel count a history).1.present = (v.travel count a history').1.present := by
  show (w.present.travel count a {}).1.present = (v.present.travel count a {}).1.present
  rw [h]

/-- Going to another moment and back leaves the present as it was, as long as the counters have not
come to their end. -/
theorem present_travel_back (hwon : u.won = u.covered) (hsteps : u.steps < maxCount)
    (hpushes : u.pushes < maxCount) (a : Actors) (history history' : History) :
    ((u.travel countUp a history).1.travel countDown u.actors history').1.present =
      u.present := by
  have hback : ∀ n, n < maxCount → countDown (countUp n) = n := by
    intro n hn
    simp only [countDown, countUp]
    omega
  have hsame : a.sameBoxes u.actors = u.actors.sameBoxes a := Actors.sameBoxes_comm _ _
  have hcount : (if a.sameBoxes u.actors then
      if u.actors.sameBoxes a then u.pushes else countUp u.pushes
      else countDown (if u.actors.sameBoxes a then u.pushes else countUp u.pushes)) =
      u.pushes := by
    rw [hsame]
    split
    · rfl
    · exact hback _ hpushes
  simp only [present, travel, judge, hback _ hsteps, hcount]
  rw [hwon]

/-! ## Playing moves only -/

/-- The world after a move, which is the same world if the move is not allowed. -/
def after (w : World) (d : Direction) : World := (w.apply (.move d)).1

/-- The world after moves that are played straight. -/
def replay (w : World) (moves : List Direction) : World := (w.play (moves.map .move)).1

/-- The moves are allowed, one after another. -/
def Allows (w : World) : List Direction → Prop
  | [] => True
  | d :: rest => w.canMove d = true ∧ (w.after d).Allows rest

theorem replay_nil (w : World) : w.replay [] = w := rfl

theorem replay_cons (w : World) (d : Direction) (rest : List Direction) :
    w.replay (d :: rest) = (w.after d).replay rest := rfl

theorem replay_append (w : World) (early late : List Direction) :
    w.replay (early ++ late) = (w.replay early).replay late := by
  simp only [replay, play, List.map_append, fst_applyAll_append]

theorem replay_concat (w : World) (early : List Direction) (d : Direction) :
    w.replay (early ++ [d]) = (w.replay early).after d := replay_append w early [d]

theorem allows_append (w : World) (early late : List Direction) :
    w.Allows (early ++ late) ↔ w.Allows early ∧ (w.replay early).Allows late := by
  induction early generalizing w with
  | nil => simp [Allows, replay_nil]
  | cons d early ih => rw [List.cons_append, Allows, Allows, ih, replay_cons, and_assoc]

theorem after_of_not_canMove (h : w.canMove d = false) : w.after d = w := by
  rw [canMove, Option.isSome_eq_false_iff, Option.isNone_iff_eq_none] at h
  simp [after, apply, move?, h]

/-- A move that is allowed goes to the moment it leads to. -/
theorem exists_after_eq_travel (h : w.canMove d = true) :
    ∃ b, w.after d = (w.travel countUp b
      ((if w.history.isEmpty then w.history.add w.actors else w.history).add b)).1 := by
  obtain ⟨p, hp⟩ := Option.isSome_iff_exists.mp h
  exact ⟨w.actorsAfter p, by rw [← commit_eq_travel hp]; simp [after, apply, move?, hp]⟩

theorem present_after (h : w.present = v.present) (d : Direction) :
    (w.after d).present = (v.after d).present := by
  have hpresent : ∀ u : World, (u.after d).present = (u.present.after d).present := by
    intro u
    have hplan : u.present.plan? d = u.plan? d := rfl
    simp only [after, apply, move?, hplan]
    cases u.plan? d <;> rfl
  rw [hpresent w, h, ← hpresent v]

/-- What each move keeps holds after all of them. -/
theorem replay_induction {P : World → Prop} {w : World} (hw : P w)
    (hstep : ∀ u d, P u → P (u.after d)) (moves : List Direction) : P (w.replay moves) := by
  induction moves generalizing w with
  | nil => exact hw
  | cons d rest ih => exact ih (hstep w d hw)

theorem won_after (h : w.won = w.covered) : (w.after d).won = (w.after d).covered := by
  cases hd : w.canMove d with
  | false => rwa [after_of_not_canMove hd]
  | true =>
    obtain ⟨b, hb⟩ := exists_after_eq_travel hd
    rw [hb]
    rfl

theorem won_replay (h : w.won = w.covered) (moves : List Direction) :
    (w.replay moves).won = (w.replay moves).covered :=
  replay_induction (P := fun u ↦ u.won = u.covered) h (fun _ _ ↦ won_after) moves

theorem counts_after_le : (w.after d).steps ≤ w.steps + 1 ∧ (w.after d).pushes ≤ w.pushes + 1 := by
  cases hd : w.canMove d with
  | false => rw [after_of_not_canMove hd]; omega
  | true =>
    obtain ⟨b, hb⟩ := exists_after_eq_travel hd
    rw [hb]
    refine ⟨Nat.min_le_left _ _, ?_⟩
    simp only [travel, judge]
    split
    · omega
    · exact Nat.min_le_left _ _

theorem counts_replay_le (w : World) (moves : List Direction) :
    (w.replay moves).steps ≤ w.steps + moves.length ∧
      (w.replay moves).pushes ≤ w.pushes + moves.length := by
  induction moves generalizing w with
  | nil => exact ⟨Nat.le_refl _, Nat.le_refl _⟩
  | cons d rest ih =>
    have hfirst := counts_after_le (w := w) (d := d)
    have hrest := ih (w.after d)
    rw [replay_cons, List.length_cons]
    omega

/-! ## The moments along moves -/

/-- The moments that moves leave behind. -/
def trail (w : World) : List Direction → List Actors
  | [] => []
  | d :: rest => w.actors :: (w.after d).trail rest

/-- The moments that moves lead to. -/
def prospect (w : World) : List Direction → List Actors
  | [] => []
  | d :: rest => (w.after d).actors :: (w.after d).prospect rest

theorem trail_concat (w : World) (early : List Direction) (d : Direction) :
    w.trail (early ++ [d]) = w.trail early ++ [(w.replay early).actors] := by
  induction early generalizing w with
  | nil => rfl
  | cons e early ih => rw [List.cons_append, trail, trail, ih, replay_cons, List.cons_append]

theorem trail_eq_nil_iff {moves : List Direction} : w.trail moves = [] ↔ moves = [] := by
  cases moves <;> simp [trail]

theorem prospect_eq_nil_iff {moves : List Direction} : w.prospect moves = [] ↔ moves = [] := by
  cases moves <;> simp [prospect]

end World

/-! ## Keeping books of a script -/

/-- The moves of a script that are in force, in the order in which they were made, and those that
have been taken back, the one to be made again next in front. -/
structure Track where
  done : List Direction := []
  undone : List Direction := []
  deriving DecidableEq, Repr

namespace Track

/-- The books after one more play.  Whether a move is allowed is asked of the world that the moves
in force lead to. -/
def step (start : World) (t : Track) : Play → Track
  | .move d => if (start.replay t.done).canMove d then ⟨t.done ++ [d], []⟩ else t
  | .undo => match t.done.getLast? with
    | none => t
    | some d => ⟨t.done.dropLast, d :: t.undone⟩
  | .redo => match t.undone with
    | [] => t
    | d :: rest => ⟨t.done ++ [d], rest⟩

/-- The books after a script. -/
def ofScript (start : World) (script : List Play) : Track := script.foldl (step start) {}

/-- Number of moves in the books. -/
def length (t : Track) : Nat := t.done.length + t.undone.length

variable {start : World} {done undone : List Direction} {d : Direction}

@[simp] theorem step_undo_nil : step start ⟨[], undone⟩ .undo = ⟨[], undone⟩ := rfl

@[simp] theorem step_redo_nil : step start ⟨done, []⟩ .redo = ⟨done, []⟩ := rfl

@[simp] theorem step_redo_cons : step start ⟨done, d :: undone⟩ .redo = ⟨done ++ [d], undone⟩ := rfl

@[simp] theorem step_undo_concat :
    step start ⟨done ++ [d], undone⟩ .undo = ⟨done, d :: undone⟩ := by
  simp [step]

theorem length_step_le (start : World) (t : Track) (p : Play) :
    (t.step start p).length ≤ t.length + if p.isMove then 1 else 0 := by
  cases p with
  | move d =>
    simp only [step, Play.isMove, length]
    split <;> simp
  | undo =>
    obtain ⟨done, undone⟩ := t
    rcases List.eq_nil_or_concat' done with rfl | ⟨early, d, rfl⟩
    · simp [step, length]
    · rw [step_undo_concat]
      simp [length]
      omega
  | redo =>
    obtain ⟨done, undone⟩ := t
    cases undone with
    | nil => simp [step, length]
    | cons d rest => simp [step, length]; omega

end Track

/-- A world that stands where the books say: its present is that of the replay, and its history
holds the moments along the moves in force and along those taken back. -/
structure Follows (start : World) (t : Track) (w : World) : Prop where
  present : w.present = (start.replay t.done).present
  history : w.history =
    .ofParts (start.trail t.done) w.actors ((start.replay t.done).prospect t.undone)
  allowed : start.Allows (t.done ++ t.undone)

namespace Follows

variable {start w : World} {t : Track}

theorem layout_eq (h : Follows start t w) : w.toLayout = (start.replay t.done).toLayout :=
  (World.present_eq_iff.mp h.present).1

theorem actors_eq (h : Follows start t w) : w.actors = (start.replay t.done).actors := by
  rw [h.layout_eq]

theorem canMove_eq (h : Follows start t w) (d : Direction) :
    w.canMove d = (start.replay t.done).canMove d :=
  World.canMove_congr h.present d

/-- A move that is allowed is put in force, and ends the chances of those taken back. -/
theorem move (h : Follows start t w) {d : Direction} (hd : w.canMove d = true) :
    Follows start ⟨t.done ++ [d], []⟩ (w.after d) := by
  obtain ⟨b, hb⟩ := World.exists_after_eq_travel hd
  refine ⟨?_, ?_, ?_⟩
  · rw [World.replay_concat]
    exact World.present_after h.present d
  · rw [hb, h.history, History.isEmpty_ofParts, World.trail_concat, ← h.actors_eq]
    exact History.add_ofParts
  · have hallowed := (World.allows_append start t.done t.undone).mp h.allowed
    rw [List.append_nil, World.allows_append]
    exact ⟨hallowed.1, by rwa [← h.canMove_eq], trivial⟩

/-- With no move in force there is nothing to take back. -/
theorem undo?_eq_none {undone : List Direction} (h : Follows start ⟨[], undone⟩ w) :
    w.undo? = none := by
  rw [World.undo?, h.history]
  rfl

/-- The last move in force is taken back. -/
theorem undo (hwon : start.won = start.covered) {done undone : List Direction} {d : Direction}
    (h : Follows start ⟨done ++ [d], undone⟩ w)
    (hsteps : start.steps + done.length < maxCount)
    (hpushes : start.pushes + done.length < maxCount) :
    ∃ r, w.undo? = some r ∧ Follows start ⟨done, d :: undone⟩ r.1 := by
  have hallowed : start.Allows (done ++ d :: undone) := by simpa using h.allowed
  have hd := ((World.allows_append start done (d :: undone)).mp hallowed).2.1
  obtain ⟨b, hb⟩ := World.exists_after_eq_travel hd
  have hcounts := World.counts_replay_le start done
  have hpresent := h.present
  have hhistory := h.history
  rw [World.replay_concat, hb] at hpresent
  rw [World.trail_concat, World.replay_concat] at hhistory
  refine ⟨w.travel countDown (start.replay done).actors (.ofParts (start.trail done)
    (start.replay done).actors (w.actors :: ((start.replay done).after d).prospect undone)),
    ?_, ?_, ?_, hallowed⟩
  · rw [World.undo?, hhistory, History.undo?_ofParts_concat]
    rfl
  · rw [World.present_travel hpresent]
    exact World.present_travel_back (World.won_replay hwon done) (by omega) (by omega) _ _ {}
  · have hactors : w.actors = ((start.replay done).after d).actors := by
      rw [h.actors_eq, World.replay_concat]
    rw [World.prospect, ← hactors]
    rfl

/-- With no move taken back there is nothing to make again. -/
theorem redo?_eq_none {done : List Direction} (h : Follows start ⟨done, []⟩ w) :
    w.redo? = none := by
  rw [World.redo?, h.history, World.prospect, History.redo?_ofParts_nil]
  rfl

/-- The move that was taken back last is put in force again. -/
theorem redo {done undone : List Direction} {d : Direction}
    (h : Follows start ⟨done, d :: undone⟩ w) :
    ∃ r, w.redo? = some r ∧ Follows start ⟨done ++ [d], undone⟩ r.1 := by
  have hd := ((World.allows_append start done (d :: undone)).mp h.allowed).2.1
  obtain ⟨b, hb⟩ := World.exists_after_eq_travel hd
  have hactors : ((start.replay done).after d).actors = b := by
    rw [hb]
    rfl
  refine ⟨w.travel countUp b (.ofParts (start.trail done ++ [w.actors]) b
    (((start.replay done).after d).prospect undone)), ?_, ?_, ?_, by simpa using h.allowed⟩
  · rw [World.redo?, h.history, World.prospect, History.redo?_ofParts_cons, hactors]
    rfl
  · rw [World.replay_concat, hb]
    exact World.present_travel h.present _ _ _ _
  · rw [World.trail_concat, World.replay_concat, ← h.actors_eq]
    rfl

/-- **The world keeps to the books**, play by play, while no counter comes to its end. -/
theorem step (hwon : start.won = start.covered) (h : Follows start t w) (p : Play)
    (hsteps : start.steps + t.length ≤ maxCount) (hpushes : start.pushes + t.length ≤ maxCount) :
    Follows start (t.step start p) (w.apply p.command).1 := by
  obtain ⟨done, undone⟩ := t
  cases p with
  | move d =>
    show Follows start _ (w.after d)
    rw [Track.step]
    cases hd : w.canMove d with
    | false => rwa [← h.canMove_eq, hd, if_neg (by simp), World.after_of_not_canMove hd]
    | true =>
      rw [← h.canMove_eq, hd, if_pos rfl]
      exact h.move hd
  | undo =>
    rcases List.eq_nil_or_concat' done with rfl | ⟨done, d, rfl⟩
    · simpa [World.apply, Play.command, h.undo?_eq_none] using h
    · simp only [Track.length, List.length_append, List.length_singleton] at hsteps hpushes
      obtain ⟨r, hr, hfollows⟩ := h.undo hwon (by omega) (by omega)
      simpa [World.apply, Play.command, hr] using hfollows
  | redo =>
    cases undone with
    | nil => simpa [World.apply, Play.command, h.redo?_eq_none] using h
    | cons d undone =>
      obtain ⟨r, hr, hfollows⟩ := h.redo
      simpa [World.apply, Play.command, hr] using hfollows

/-- The world keeps to the books over a script with fewer moves than can be counted. -/
theorem play (hwon : start.won = start.covered) (h : Follows start t w) (script : List Play)
    (hsteps : start.steps + t.length + script.countP Play.isMove ≤ maxCount)
    (hpushes : start.pushes + t.length + script.countP Play.isMove ≤ maxCount) :
    Follows start (script.foldl (Track.step start) t) (w.play script).1 := by
  induction script generalizing t w with
  | nil => exact h
  | cons p rest ih =>
    have hlength := t.length_step_le start p
    rw [List.countP_cons] at hsteps hpushes
    exact ih (h.step hwon p (by omega) (by omega)) (by omega) (by omega)

end Follows

/-! ## Scripts played on a level -/

/-- A level that has just been loaded stands where empty books say. -/
theorem follows_install (w : World) (l : Layout) : Follows (w.install l).1 {} (w.install l).1 :=
  ⟨rfl, rfl, trivial⟩

/-- **Undo and redo agree with replay.**  A script is played on a level that has just been loaded,
with fewer moves than there are words.  Then the world agrees with the one in which only the moves
in force are played, and a move can be taken back, or made again, exactly when the books have one.
-/
theorem World.play_eq_replay {w start : World} {level : LevelSource} {events : List Event}
    (hload : w.loadFrom level = .ok (start, events)) (script : List Play)
    (hmoves : script.countP Play.isMove < UInt32.size) :
    let played := (start.play script).1
    let track := Track.ofScript start script
    let replayed := start.replay track.done
    played.field = replayed.field ∧ played.actors.mole = replayed.actors.mole ∧
      played.actors.boxes = replayed.actors.boxes ∧ played.targets = replayed.targets ∧
      played.steps = replayed.steps ∧ played.pushes = replayed.pushes ∧
      played.won = replayed.won ∧ played.bytes = replayed.bytes ∧
      (played.canUndo = true ↔ track.done ≠ []) ∧ (played.canRedo = true ↔ track.undone ≠ []) := by
  intro played track replayed
  obtain ⟨l, _, hl⟩ := World.exists_layout_of_loadFrom hload
  obtain rfl : (w.install l).1 = start := congrArg Prod.fst hl
  have hcount : script.countP Play.isMove ≤ maxCount := Nat.le_of_lt_succ hmoves
  have hzero : (w.install l).1.steps + ({} : Track).length = 0 := rfl
  have hzero' : (w.install l).1.pushes + ({} : Track).length = 0 := rfl
  have h : Follows (w.install l).1 track played :=
    (follows_install w l).play rfl script (by omega) (by omega)
  obtain ⟨hlayout, -, hsteps, hpushes, hwon⟩ := World.present_eq_iff.mp h.present
  refine ⟨?_, ?_, ?_, ?_, hsteps, hpushes, hwon, ?_, ?_, ?_⟩
  · rw [hlayout]
  · rw [hlayout]
  · rw [hlayout]
  · rw [hlayout]
  · rw [hlayout]
  · rw [World.canUndo, h.history, History.canUndo_ofParts, Ne, World.trail_eq_nil_iff]
  · rw [World.canRedo, h.history, History.canRedo_ofParts, Ne, World.prospect_eq_nil_iff]

/-- A box is pushed twice, both pushes are taken back, a wall is run into, and the first push is
made again: that push is in force, and the second can be made again. -/
theorem World.play_eq_replay_corridor : ∃ start events,
    World.loadFrom {} (.rows [['M', 'B', 'F', 'T']]) = .ok (start, events) ∧
      let script := [.move .right, .move .right, .undo, .undo, .move .up, .redo]
      let played := (start.play script).1
      let replayed := start.replay [.right]
      script.countP Play.isMove < UInt32.size ∧ Track.ofScript start script = ⟨[.right], [.right]⟩ ∧
        played.field = replayed.field ∧ played.actors.mole = replayed.actors.mole ∧
        played.actors.boxes = replayed.actors.boxes ∧ played.targets = replayed.targets ∧
        played.steps = replayed.steps ∧ played.pushes = replayed.pushes ∧
        played.won = replayed.won ∧ played.bytes = replayed.bytes ∧
        (played.canUndo = true ↔ [Direction.right] ≠ []) ∧
        (played.canRedo = true ↔ [Direction.right] ≠ []) := by
  have hload : World.loadFrom {} (.rows [['M', 'B', 'F', 'T']]) = .ok (_, _) := rfl
  exact ⟨_, _, hload, by decide, by decide, World.play_eq_replay hload _ (by decide)⟩

end MolePuzzle
