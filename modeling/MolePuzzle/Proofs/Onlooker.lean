import MolePuzzle.Proofs.BoxChange
import MolePuzzle.Proofs.Contained

/-!
# Following a game by its events

An onlooker has seen where the mole is and which cells hold boxes, and then only hears the events.
`Onlooker.follow?` is how a move that is told is made on what has been seen.  The onlooker is lost
when the event does not fit: when the mole is not where the move starts, when there is no box where
one is taken away, or when there is one already where it is put.

`World.followAll?_play` says that in a game no onlooker gets lost, and that a play of which nothing
is heard has changed nothing.  For a move this is what its plan says.  For a way through the history
the push has been found out by comparing two moments, which is enough since neighbouring moments of
a game are one move apart.
-/

set_option autoImplicit false

namespace MolePuzzle

/-! ## The onlooker -/

/-- What an onlooker knows of a game. -/
structure Onlooker where
  mole : Option Coord
  /-- The cells that hold boxes. -/
  boxes : CellSet
  deriving DecidableEq

namespace Onlooker

/-- An onlooker who has just looked. -/
def of (a : Actors) : Onlooker := ⟨a.mole, a.boxSet⟩

/-- What the onlooker knows after an event, if the event fits. -/
def follow? (o : Onlooker) : Event → Option Onlooker
  | .moleMoved m =>
    if m.origin = o.mole then
      match m.push with
      | none => some ⟨m.destination, o.boxes⟩
      | some p =>
        if p.origin ∈ o.boxes ∧ p.destination ∉ o.boxes then
          some ⟨m.destination, (CellSet.add (CellSet.remove o.boxes p.origin).2 p.destination).2⟩
        else none
    else none
  | _ => some o

/-- What the onlooker knows after events, if each of them fits. -/
def followAll? (o : Onlooker) (events : List Event) : Option Onlooker := events.foldlM follow? o

@[simp] theorem followAll?_nil (o : Onlooker) : o.followAll? [] = some o := rfl

@[simp] theorem followAll?_cons (o : Onlooker) (e : Event) (events : List Event) :
    o.followAll? (e :: events) = (o.follow? e).bind fun o' ↦ o'.followAll? events := rfl

theorem followAll?_append (o : Onlooker) (early late : List Event) :
    o.followAll? (early ++ late) = (o.followAll? early).bind fun o' ↦ o'.followAll? late :=
  List.foldlM_append

/-- To the onlooker it is no news that a level is solved. -/
theorem followAll?_judge (o : Onlooker) (w : World) : o.followAll? w.judge.2 = some o := by
  rw [World.judge]
  dsimp only
  split <;> rfl

/-- A move that is told with the change it makes can be followed, if it makes no other change. -/
theorem follow?_moleMoved {a b : Actors} (h : a.boxChange? b = none → a.boxes = b.boxes) :
    (of a).follow? (.moleMoved ⟨a.mole, b.mole, a.boxChange? b⟩) = some (of b) := by
  have hmole : a.mole = (of a).mole := rfl
  rw [follow?, if_pos hmole]
  cases hchange : a.boxChange? b with
  | none => rw [of, of, Actors.boxSet, Actors.boxSet, h hchange]
  | some p =>
    obtain ⟨hleft, hright⟩ := Actors.boxChange?_eq_some_iff.mp hchange
    have horigin : p.origin ∈ (of a).boxes := Actors.mem_boxSet.mpr ((hleft _).mpr rfl).1
    have hdestination : p.destination ∉ (of a).boxes :=
      fun hin ↦ ((hright _).mpr rfl).2 (Actors.mem_boxSet.mp hin)
    have hboxes : (CellSet.add (CellSet.remove (of a).boxes p.origin).2 p.destination).2 =
        b.boxSet := by
      refine Std.ExtTreeSet.ext_mem fun c ↦ ?_
      rw [CellSet.mem_add, CellSet.mem_remove, Actors.mem_boxSet,
        Actors.mem_boxes_iff_of_boxChange? hchange, of, Actors.mem_boxSet]
    dsimp only
    rw [if_pos ⟨horigin, hdestination⟩, hboxes]
    rfl

end Onlooker

/-! ## Plays as travels -/

theorem Coord.ne_of_step? {c e : Coord} {d : Direction} (h : c.step? d = some e) : e ≠ c := by
  rintro rfl
  obtain ⟨hcolumn, hrow⟩ := step?_eq_some_iff.mp h
  cases d <;> simp only [Direction.offset] at hcolumn hrow <;> omega

theorem Actors.Moves.mole_ne {walkable : Coord → Prop} {d : Direction} {a b : Actors}
    (h : a.Moves walkable d b) : b.mole ≠ a.mole := by
  cases h with
  | walk hmole hnext hwalk hfree =>
    rw [hmole]
    exact fun hsame ↦ Coord.ne_of_step? hnext (Option.some.inj hsame)
  | push hmole hnext hwalk hbox hbeyond hwalk' hfree =>
    rw [hmole]
    exact fun hsame ↦ Coord.ne_of_step? hnext (Option.some.inj hsame)

namespace World

variable {walkable : Coord → Prop} {w : World}

/-- Where no box is listed twice, a move is told like a way through the history. -/
theorem commit_eq_travel_of_nodup {d : Direction} {q : Plan} (hplan : w.plan? d = some q)
    (hnodup : w.actors.boxes.Nodup) : ∃ history,
    w.commit q = w.travel countUp (w.actorsAfter q) history := by
  refine ⟨_, Prod.ext (commit_eq_travel hplan) ?_⟩
  have hmole : w.actors.mole = some q.origin := by
    obtain ⟨origin, next, hmole, -, -, hrest⟩ := plan?_eq_some_iff.mp hplan
    rcases hrest with ⟨-, rfl⟩ | ⟨-, beyond, -, -, -, rfl⟩ <;> exact hmole
  rw [commit, travel, boxChange?_actorsAfter hplan hnodup, hmole]
  rfl

/-- A way through the history is told as a move, before anything else. -/
theorem snd_travel (w : World) (count : Nat → Nat) (a : Actors) (history : History) :
    ∃ v : World, (w.travel count a history).2 =
      .moleMoved ⟨w.actors.mole, a.mole, w.actors.boxChange? a⟩ :: v.judge.2 := ⟨_, rfl⟩

/-- **A play that is allowed goes to a moment that is one move apart.** -/
theorem Lawful.exists_travel (h : w.Lawful walkable) (hfloor : ∀ c ∈ w.floor, walkable c)
    {p : Play} {r : World × List Event} (hp : w.play? p = some r) :
    ∃ count b history d, r = w.travel count b history ∧ b.Placed walkable ∧
      (w.actors.Moves walkable d b ∨ b.Moves walkable d w.actors) := by
  have hplaced := h.entries_placed
  have hlinked := h.linked
  rcases play?_cases hp with ⟨d, q, -, hplan, rfl⟩ | ⟨b, history, -, hundo, rfl⟩ |
    ⟨b, history, -, hredo, rfl⟩
  · obtain ⟨history, hcommit⟩ := commit_eq_travel_of_nodup hplan h.placed.boxes_nodup
    have hmoves := (moves_of_plan? hplan).imp hfloor
    exact ⟨_, _, history, d, hcommit, hmoves.placed h.placed, .inl hmoves⟩
  · obtain ⟨past, future, hhistory, -⟩ := h.shows.undo?_eq_some hundo
    rw [hhistory, History.toList_entries_ofParts] at hplaced hlinked
    rw [List.append_assoc, List.singleton_append] at hlinked
    obtain ⟨-, ⟨d, hd⟩, -⟩ := List.isChain_append_cons_cons.mp hlinked
    exact ⟨_, _, _, d, rfl, hplaced b (by simp), .inr hd⟩
  · obtain ⟨past, future, hhistory, -⟩ := h.shows.redo?_eq_some hredo
    rw [hhistory, History.toList_entries_ofParts] at hplaced hlinked
    obtain ⟨-, ⟨d, hd⟩, -⟩ := List.isChain_append_cons_cons.mp hlinked
    exact ⟨_, _, _, d, rfl, hplaced b (by simp), .inl hd⟩

/-! ## Following a game -/

/-- An onlooker can follow one play. -/
theorem Lawful.followAll?_apply (h : w.Lawful walkable) (hfloor : ∀ c ∈ w.floor, walkable c)
    (p : Play) : (Onlooker.of w.actors).followAll? (w.apply p.command).2 =
      some (.of (w.apply p.command).1.actors) := by
  rw [apply_play]
  cases hp : w.play? p with
  | none => rfl
  | some r =>
    obtain ⟨count, b, history, d, rfl, hb, hmoves⟩ := h.exists_travel hfloor hp
    have hfollow : (Onlooker.of w.actors).follow?
        (.moleMoved ⟨w.actors.mole, b.mole, w.actors.boxChange? b⟩) = some (.of b) := by
      refine Onlooker.follow?_moleMoved fun hnone ↦ ?_
      rcases hmoves with hmoves | hmoves
      · exact hmoves.boxes_eq_of_boxChange? h.placed.boxes_nodup hnone
      · refine (hmoves.boxes_eq_of_boxChange? hb.boxes_nodup ?_).symm
        rw [Option.eq_none_iff_forall_ne_some]
        intro push hpush
        rw [Actors.boxChange?_symm hpush] at hnone
        cases hnone
    obtain ⟨v, hevents⟩ := w.snd_travel count b history
    rw [Option.getD_some, hevents, Onlooker.followAll?_cons, hfollow, Option.bind_some,
      Onlooker.followAll?_judge]
    rfl

/-- A play of which nothing is heard has changed nothing, and only such a one. -/
theorem Lawful.apply_eq_nil_iff (h : w.Lawful walkable) (hfloor : ∀ c ∈ w.floor, walkable c)
    (p : Play) : (w.apply p.command).2 = [] ↔ (w.apply p.command).1 = w := by
  rw [apply_play]
  cases hp : w.play? p with
  | none => exact iff_of_true rfl rfl
  | some r =>
    obtain ⟨count, b, history, d, rfl, -, hmoves⟩ := h.exists_travel hfloor hp
    refine iff_of_false (List.cons_ne_nil _ _) fun hsame ↦ ?_
    have hactors : b = w.actors := congrArg (fun v : World ↦ v.actors) hsame
    rcases hmoves with hmoves | hmoves
    · exact hmoves.mole_ne (by rw [hactors])
    · exact hmoves.mole_ne (by rw [hactors])

/-- An onlooker can follow a script. -/
theorem Contained.followAll?_script (h : w.Contained) (script : List Play) :
    (Onlooker.of w.actors).followAll? (w.play script).2 = some (.of (w.play script).1.actors) := by
  induction script generalizing w with
  | nil => rfl
  | cons p rest ih =>
    show (Onlooker.of w.actors).followAll? ((w.apply p.command).2 ++ _) = _
    rw [Onlooker.followAll?_append, h.lawful.followAll?_apply h.charted.floor_mem,
      Option.bind_some]
    exact ih (h.play p)

/-- **Events are enough to follow a game.**  Someone who has looked at a world after any drive, and
then only hears the events of a script, knows after each of its plays where the mole is and which
cells hold boxes; no event has taken the mole from where it was not, or a box, or put a box on
another.  Nothing is heard of a play exactly when it has changed nothing. -/
theorem followAll?_play (acts : List Act) (script : List Play) :
    let w := (drive {} acts).1
    let v := (w.play script).1
    (Onlooker.of w.actors).followAll? (w.play script).2 = some (.of v.actors) ∧
      ∀ p : Play, (v.apply p.command).2 = [] ↔ (v.apply p.command).1 = v := by
  intro w v
  have hw : w.Contained := contained_drive acts
  have hv : v.Contained := play_induction (P := Contained) (fun _ p h ↦ h.play p) hw script
  refine ⟨?_, hv.lawful.apply_eq_nil_iff hv.charted.floor_mem⟩
  exact hw.followAll?_script script

end World

end MolePuzzle
