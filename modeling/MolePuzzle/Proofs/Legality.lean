import MolePuzzle.Proofs.Reachable

/-!
# Moves are judged by the terrain

A move never looks at the field.  It is checked against a set of floor cells, which loading and
resizing make anew and painting brings up to date, and against the boxes, which are a list that any
command may have grown.  `Layout.Legal` is the rule as the field has it.  After any run the world
allows just what is legal, does it without disturbing anything else, and does nothing at all where
the rule forbids (`World.canMove_iff_legal`).

Two facts about runs carry this: the ground is charted, so that the set is the floor of the field,
and no box is listed twice, so that the first entry of a pushed box is its only one.
-/

set_option autoImplicit false

namespace MolePuzzle

/-- The rule of moves on the terrain of the field: there is a mole, the cell next to it is floor,
and a box on that cell can go on to a cell that is floor and free. -/
def Layout.Legal (l : Layout) (d : Direction) : Prop :=
  ∃ origin next, l.actors.mole = some origin ∧ origin.step? d = some next ∧ l.field.IsFloor next ∧
    (next ∉ l.actors.boxes ∨ ∃ beyond, next.step? d = some beyond ∧ l.field.IsFloor beyond ∧
      beyond ∉ l.actors.boxes)

namespace World

variable {w : World} {d : Direction}

/-- A world that knows its floor has plans for the legal moves. -/
theorem Surveyed.exists_plan?_iff (h : w.Surveyed) : (∃ p, w.plan? d = some p) ↔ w.Legal d := by
  constructor
  · rintro ⟨p, hp⟩
    obtain ⟨origin, next, hmole, hnext, hfloor, hrest⟩ := plan?_eq_some_iff.mp hp
    refine ⟨origin, next, hmole, hnext, (h.mem_floor_iff next).mp hfloor, ?_⟩
    rcases hrest with ⟨hfree, -⟩ | ⟨-, beyond, hbeyond, hfloor', hfree, -⟩
    · exact .inl hfree
    · exact .inr ⟨beyond, hbeyond, (h.mem_floor_iff beyond).mp hfloor', hfree⟩
  · rintro ⟨origin, next, hmole, hnext, hfloor, hrest⟩
    have hfloor := (h.mem_floor_iff next).mpr hfloor
    by_cases hbox : next ∈ w.actors.boxes
    · obtain ⟨beyond, hbeyond, hfloor', hfree⟩ := hrest.resolve_left (not_not_intro hbox)
      exact ⟨_, plan?_eq_some_iff.mpr ⟨origin, next, hmole, hnext, hfloor,
        .inr ⟨hbox, beyond, hbeyond, (h.mem_floor_iff beyond).mpr hfloor', hfree, rfl⟩⟩⟩
    · exact ⟨_, plan?_eq_some_iff.mpr ⟨origin, next, hmole, hnext, hfloor, .inl ⟨hbox, rfl⟩⟩⟩

/-- All that can be news is that the level is solved. -/
theorem eq_solved_of_mem_judge {e : Event} (he : e ∈ w.judge.2) : e = .solved w.steps := by
  rw [judge] at he
  split at he
  · exact List.mem_singleton.mp he
  · cases he

/-- **Moves are judged by the terrain.**  After any commands and levels, if words can number the
cells of the field, a move is allowed exactly when it is legal.  Then the mole goes to the next
cell, a box there goes one cell further and keeps its place in the list, as do all other boxes, and
the first event tells just this.  A move that is not legal changes nothing and tells nothing. -/
theorem canMove_iff_legal (inputs : List Input) (hfits : (run {} inputs).1.field.size.FitsWord)
    (d : Direction) :
    let w := (run {} inputs).1
    (w.canMove d = true ↔ w.Legal d) ∧
      (w.Legal d → ∃ v origin next push news, origin.step? d = some next ∧
        w.move? d = some (v, .moleMoved ⟨some origin, some next, push⟩ :: news) ∧
        w.apply (.move d) = (v, .moleMoved ⟨some origin, some next, push⟩ :: news) ∧
        (∀ e ∈ news, e = .solved v.steps) ∧
        w.actors.mole = some origin ∧ v.actors.mole = some next ∧
        (next ∉ w.actors.boxes ∧ push = none ∧ v.actors.boxes = w.actors.boxes ∨
          ∃ beyond k, next.step? d = some beyond ∧ push = some ⟨next, beyond⟩ ∧
            (∀ i, w.actors.boxes[i]? = some next ↔ i = k) ∧
            v.actors.boxes = w.actors.boxes.set k beyond) ∧
        v.field = w.field ∧ v.targets = w.targets ∧ v.name = w.name) ∧
      (¬ w.Legal d → w.move? d = none ∧ w.apply (.move d) = (w, [])) := by
  intro w
  have hplan : (∃ p, w.plan? d = some p) ↔ w.Legal d :=
    ((charted_run inputs).surveyed hfits).exists_plan?_iff
  refine ⟨?_, fun hlegal ↦ ?_, fun hillegal ↦ ?_⟩
  · rw [canMove, Option.isSome_iff_exists, hplan]
  · obtain ⟨p, hp⟩ := hplan.mpr hlegal
    have hmove : w.move? d = some (w.commit p) := by rw [move?, hp, Option.map_some]
    have happly : w.apply (.move d) = w.commit p := by rw [apply, hmove, Option.getD_some]
    obtain ⟨origin, next, hmole, hnext, -, hrest⟩ := plan?_eq_some_iff.mp hp
    rcases hrest with ⟨hfree, rfl⟩ | ⟨hbox, beyond, hbeyond, -, -, rfl⟩
    · exact ⟨_, origin, next, none, _, hnext, hmove, happly, fun _ ↦ eq_solved_of_mem_judge, hmole,
        rfl, .inl ⟨hfree, rfl, rfl⟩, rfl, rfl, rfl⟩
    · obtain ⟨k, hk, hreplace⟩ :=
        exists_replace_eq_set (distinct_run inputs).boxes_nodup hbox beyond
      exact ⟨_, origin, next, some ⟨next, beyond⟩, _, hnext, hmove, happly,
        fun _ ↦ eq_solved_of_mem_judge, hmole, rfl, .inr ⟨beyond, k, hbeyond, rfl, hk, hreplace⟩,
        rfl, rfl, rfl⟩
  · have hnone : w.plan? d = none :=
      Option.eq_none_iff_forall_ne_some.mpr fun p hp ↦ hillegal (hplan.mp ⟨p, hp⟩)
    have hmove : w.move? d = none := by rw [move?, hnone, Option.map_none]
    exact ⟨hmove, by rw [apply, hmove, Option.getD_none]⟩

/-- Floor is painted where a wall stood in the way of a box.  The box can then be pushed there, and
the box below the mole still cannot be pushed out of the field. -/
theorem canMove_iff_legal_painted :
    let inputs : List Input := [.load (.rows [['M', 'B', 'W'], ['B']]),
      .command (.setTerrain ⟨2, 0⟩ .floor)]
    let w := (run {} inputs).1
    w.field.size.FitsWord ∧ w.Legal .right ∧ ¬ w.Legal .down ∧
      (∃ v news, w.apply (.move .right) =
          (v, .moleMoved ⟨some ⟨0, 0⟩, some ⟨1, 0⟩, some ⟨⟨1, 0⟩, ⟨2, 0⟩⟩⟩ :: news) ∧
        v.actors.boxes = w.actors.boxes.set 0 ⟨2, 0⟩) ∧
      w.apply (.move .down) = (w, []) := by
  intro inputs w
  have hfits : w.field.size.FitsWord := by decide
  obtain ⟨hright, -, -⟩ := canMove_iff_legal inputs hfits .right
  obtain ⟨hdown, -, hstay⟩ := canMove_iff_legal inputs hfits .down
  have hillegal : ¬ w.Legal .down := fun h ↦ absurd (hdown.mpr h) (by decide)
  exact ⟨hfits, hright.mp (by decide), hillegal, ⟨_, _, rfl, by decide⟩, (hstay hillegal).2⟩

end World

end MolePuzzle
