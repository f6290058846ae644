import MolePuzzle.Proofs.Replay
import MolePuzzle.Proofs.WellFormed

/-!
# Walking back

A move that pushes no box can be undone by a move: the mole goes back to where it came from.  This
takes that the mole came from floor, and from a cell without a box, which no move checks.  It is so
as long as the actors are placed (`Actors.Moves.back`).

`World.Walks` says of moves that they are allowed, one after another, and that none of them pushes
a box.  After a walk the opposite moves in the opposite order are a walk, too, and lead back to
where it began (`World.Walks.back`).  So it is wherever a drive has led (`World.walk_back_drive`).
-/

set_option autoImplicit false

namespace MolePuzzle

/-! ## Opposite directions -/

namespace Direction

/-- The direction that leads back. -/
def opposite : Direction → Direction
  | up => down
  | down => up
  | left => right
  | right => left

theorem offset_opposite (d : Direction) : d.opposite.offset = (-d.offset.1, -d.offset.2) := by
  cases d <;> rfl

end Direction

/-- The opposite direction leads back, also at the ends of the words. -/
theorem Coord.step?_opposite {c e : Coord} {d : Direction} (h : c.step? d = some e) :
    e.step? d.opposite = some c := by
  obtain ⟨hcolumn, hrow⟩ := step?_eq_some_iff.mp h
  rw [step?_eq_some_iff, Direction.offset_opposite]
  omega

namespace Actors

variable {walkable : Coord → Prop} {d : Direction} {a b : Actors}

/-- **A move that leaves the boxes alone can be made backwards**, if the mole stood where it can
stand. -/
theorem Moves.back (h : a.Moves walkable d b) (hboxes : b.boxes = a.boxes)
    (ha : a.Placed walkable) : b.Moves walkable d.opposite a := by
  cases h with
  | @walk origin next hmole hnext hwalk hfree =>
    have hback : a = { a with mole := some origin } := by rw [← hmole]
    rw [hback]
    exact .walk rfl (Coord.step?_opposite hnext) (ha.mole_walkable origin hmole)
      (ha.mole_free origin hmole)
  | @push origin next beyond hmole hnext hwalk hbox hbeyond hwalk' hfree =>
    have hpushed : beyond ∈ a.boxes.replace next beyond := mem_replace_of_mem hbox
    exact absurd (hboxes ▸ hpushed) hfree

end Actors

namespace World

variable {w : World} {d : Direction} {b : Actors}

/-! ## Walks -/

/-- The move is allowed and pushes no box: what is told of it is a move without a push. -/
def Steps (w : World) (d : Direction) : Prop :=
  ∃ v origin destination news,
    w.move? d = some (v, .moleMoved ⟨origin, destination, none⟩ :: news)

/-- The moves are allowed, one after another, and none of them pushes a box. -/
def Walks (w : World) : List Direction → Prop
  | [] => True
  | d :: rest => w.Steps d ∧ (w.after d).Walks rest

/-- **A step is a move of the rule that leaves the boxes alone.** -/
theorem steps_iff : w.Steps d ∧ (w.after d).actors = b ↔
    w.actors.Moves (· ∈ w.floor) d b ∧ b.boxes = w.actors.boxes := by
  have hafter : ∀ p, w.plan? d = some p → (w.after d).actors = w.actorsAfter p := by
    intro p hp
    rw [after, apply, move?, hp]
    rfl
  constructor
  · rintro ⟨⟨v, origin, destination, news, hmove⟩, rfl⟩
    obtain ⟨p, hp, hcommit⟩ := Option.map_eq_some_iff.mp hmove
    have htold := (List.cons.inj (congrArg Prod.snd hcommit)).1
    have hpush : p.push = none := (MoleMove.mk.inj (Event.moleMoved.inj htold)).2.2
    rw [hafter p hp]
    exact ⟨moves_of_plan? hp, by rw [actorsAfter, hpush]⟩
  · rintro ⟨hmoves, hboxes⟩
    obtain ⟨p, hp, rfl⟩ := exists_plan?_of_moves hmoves
    have hsame : w.actors.sameBoxes (w.actorsAfter p) = true :=
      Actors.sameBoxes_iff.mpr fun c ↦ by rw [hboxes]
    rw [sameBoxes_actorsAfter hp, Option.isNone_iff_eq_none] at hsame
    have hmove : w.move? d = some (w.commit p) := congrArg (Option.map w.commit) hp
    rw [commit, hsame] at hmove
    exact ⟨⟨_, _, _, _, hmove⟩, hafter p hp⟩

theorem walks_append (w : World) (early late : List Direction) :
    w.Walks (early ++ late) ↔ w.Walks early ∧ (w.replay early).Walks late := by
  induction early generalizing w with
  | nil => simp [Walks, replay_nil]
  | cons d early ih => rw [List.cons_append, Walks, Walks, ih, replay_cons, and_assoc]

theorem floor_replay (w : World) (moves : List Direction) : (w.replay moves).floor = w.floor :=
  replay_induction (P := fun u ↦ u.floor = w.floor) rfl
    (fun u d hu ↦ (u.play_frame (.move d)).2.1.trans hu) moves

/-- **A walk can be walked back.**  The induction is on the moves from the first one on, which is
the last one to be made backwards. -/
theorem Walks.back {moves : List Direction} (h : w.Walks moves)
    (hplaced : w.actors.Placed (· ∈ w.floor)) :
    let back := (moves.map Direction.opposite).reverse
    (w.replay moves).Walks back ∧ ((w.replay moves).replay back).actors = w.actors := by
  induction moves generalizing w with
  | nil => exact ⟨trivial, rfl⟩
  | cons d rest ih =>
    obtain ⟨hstep, hrest⟩ := h
    obtain ⟨hmoves, hboxes⟩ := steps_iff.mp ⟨hstep, rfl⟩
    have hfloor : (w.after d).floor = w.floor := w.floor_replay [d]
    obtain ⟨hwalks, hactors⟩ := ih hrest (by rw [hfloor]; exact hmoves.placed hplaced)
    -- Where the walk back to the first step leads, that step is made backwards.
    let last := ((w.after d).replay rest).replay (rest.map Direction.opposite).reverse
    have hlast : last.floor = w.floor := by rw [floor_replay, floor_replay, hfloor]
    have hback : last.Steps d.opposite ∧ (last.after d.opposite).actors = w.actors := by
      rw [steps_iff, hlast, hactors]
      exact ⟨hmoves.back hboxes hplaced, hboxes.symm⟩
    rw [List.map_cons, List.reverse_cons, replay_cons]
    dsimp only
    rw [walks_append, replay_concat]
    exact ⟨⟨hwalks, hback.1, trivial⟩, hback.2⟩

/-- **Plain walks can be walked back.**  Let moves be made after any drive, all of them allowed and
none of them pushing a box.  Then the opposite moves are allowed in the opposite order, none of them
pushes a box, and at the end the mole and the boxes are where they were at the start.  The fields on
the way must not have more cells than words can number. -/
theorem walk_back_drive (acts : List Act)
    (hfits : ∀ past ∈ acts.inits, (drive {} past).1.field.size.FitsWord)
    (moves : List Direction) (hwalk : (drive {} acts).1.Walks moves) :
    let start := (drive {} acts).1
    let back := (moves.map Direction.opposite).reverse
    (start.replay moves).Walks back ∧
      ((start.replay moves).replay back).actors.mole = start.actors.mole ∧
      ((start.replay moves).replay back).actors.boxes = start.actors.boxes := by
  intro start back
  have hordered : start.Ordered := ordered_drive acts hfits
  have hplaced : start.actors.Placed (· ∈ start.floor) :=
    hordered.lawful.placed.imp fun c ↦ (hordered.surveyed.mem_floor_iff c).mpr
  obtain ⟨hback, hactors⟩ := hwalk.back hplaced
  exact ⟨hback, congrArg Actors.mole hactors, congrArg Actors.boxes hactors⟩

/-- A push is taken back, a box is painted into the corner, and the mole walks around it. -/
theorem walk_back_drive_corner :
    let acts : List Act := [.load (.rows [['F', 'F', 'F'], ['M', 'B', 'T']]), .play (.move .right),
      .play .undo, .click ⟨.placedBox⟩ ⟨some ⟨2, 1⟩, false⟩]
    let start := (drive {} acts).1
    (∀ past ∈ acts.inits, (drive {} past).1.field.size.FitsWord) ∧
      start.actors = ⟨some ⟨0, 1⟩, [⟨1, 1⟩, ⟨2, 1⟩]⟩ ∧ start.Walks [.up, .right] ∧
      (start.replay [.up, .right]).actors = ⟨some ⟨1, 0⟩, [⟨1, 1⟩, ⟨2, 1⟩]⟩ ∧
      (start.replay [.up, .right]).Walks [.left, .down] ∧
      ((start.replay [.up, .right]).replay [.left, .down]).actors.mole = some ⟨0, 1⟩ := by
  intro acts start
  have hfits : ∀ past ∈ acts.inits, (drive {} past).1.field.size.FitsWord := by decide
  have hactors : start.actors = ⟨some ⟨0, 1⟩, [⟨1, 1⟩, ⟨2, 1⟩]⟩ := by decide
  have hwalk : start.Walks [.up, .right] := ⟨⟨_, _, _, _, rfl⟩, ⟨_, _, _, _, rfl⟩, trivial⟩
  obtain ⟨hback, hmole, -⟩ := walk_back_drive acts hfits [.up, .right] hwalk
  exact ⟨hfits, hactors, hwalk, by decide, hback, hmole.trans (congrArg Actors.mole hactors)⟩

end World

end MolePuzzle
