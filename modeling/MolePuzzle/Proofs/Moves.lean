import Mathlib.Data.List.Nodup
import MolePuzzle.World.Move

/-!
# The rule of moves

`Actors.Moves walkable d a b` says what a move is, without a world: in the direction `d` the mole
goes to a walkable cell that is free, or to one that holds a box and pushes the box to a walkable
cell that is free.  Which cells are walkable is left open.  A world looks them up in its set of
floor cells, and `World.canMove_iff` says that it then allows just the moves of the rule; the rules
of the game say that they are the floor of the field, and that both agree is the subject of another
file.

`Actors.Placed walkable a` is what moves keep (`Actors.Moves.placed`): everything stands on
walkable cells, no two boxes on the same one, and the mole not on a box.

A move and a move made again have the same effect on a world up to the history
(`World.commit_eq_travel`), which is what lets the two be compared.
-/

set_option autoImplicit false

namespace MolePuzzle

/-! ## Replacing an entry of a list -/

theorem mem_replace_of_mem {cells : List Coord} {c e : Coord} (h : c ∈ cells) :
    e ∈ cells.replace c e := by
  induction cells with
  | nil => simp at h
  | cons first rest ih =>
    rw [List.replace_cons]
    rcases List.mem_cons.mp h with rfl | h
    · simp
    · split
      · simp
      · exact List.mem_cons_of_mem _ (ih h)

theorem mem_of_mem_replace {cells : List Coord} {c e x : Coord} (h : x ∈ cells.replace c e) :
    x = e ∨ x ∈ cells := by
  induction cells with
  | nil => simp at h
  | cons first rest ih =>
    rw [List.replace_cons] at h
    split at h
    · rcases List.mem_cons.mp h with rfl | h
      · exact .inl rfl
      · exact .inr (List.mem_cons_of_mem _ h)
    · rcases List.mem_cons.mp h with rfl | h
      · exact .inr List.mem_cons_self
      · exact (ih h).imp_right (List.mem_cons_of_mem _)

/-- In a list without duplicates nothing is left of the replaced entry. -/
theorem not_mem_replace {cells : List Coord} {c e : Coord} (hnodup : cells.Nodup) (hce : c ≠ e) :
    c ∉ cells.replace c e := by
  induction cells with
  | nil => simp
  | cons first rest ih =>
    rw [List.nodup_cons] at hnodup
    rw [List.replace_cons]
    split
    · rename_i hfirst
      rw [beq_iff_eq] at hfirst
      subst hfirst
      simp [hce, hnodup.1]
    · rename_i hfirst
      rw [beq_eq_false_iff_ne] at hfirst
      rw [List.mem_cons, not_or]
      exact ⟨hfirst, ih hnodup.2⟩

theorem mem_replace_of_ne {cells : List Coord} {c e x : Coord} (h : x ∈ cells) (hx : x ≠ c) :
    x ∈ cells.replace c e := by
  induction cells with
  | nil => simp at h
  | cons first rest ih =>
    rw [List.replace_cons]
    split
    · rename_i hfirst
      rw [beq_iff_eq] at hfirst
      exact List.mem_cons_of_mem _ ((List.mem_cons.mp h).resolve_left (hfirst ▸ hx))
    · rcases List.mem_cons.mp h with rfl | h
      · exact List.mem_cons_self
      · exact List.mem_cons_of_mem _ (ih h)

theorem nodup_replace {cells : List Coord} {c e : Coord} (hnodup : cells.Nodup) (he : e ∉ cells) :
    (cells.replace c e).Nodup := by
  induction cells with
  | nil => simp
  | cons first rest ih =>
    rw [List.nodup_cons] at hnodup
    rw [List.mem_cons, not_or] at he
    rw [List.replace_cons]
    split
    · exact List.nodup_cons.mpr ⟨he.2, hnodup.2⟩
    · refine List.nodup_cons.mpr ⟨?_, ih hnodup.2 he.2⟩
      intro hfirst
      rcases mem_of_mem_replace hfirst with h | h
      · exact he.1 h.symm
      · exact hnodup.1 h

/-- In a list without duplicates the replaced entry is the only one of its kind, and all others keep
their places. -/
theorem exists_replace_eq_set {cells : List Coord} {c : Coord} (hnodup : cells.Nodup)
    (hc : c ∈ cells) (e : Coord) :
    ∃ k, (∀ i, cells[i]? = some c ↔ i = k) ∧ cells.replace c e = cells.set k e := by
  induction cells with
  | nil => simp at hc
  | cons first rest ih =>
    rw [List.nodup_cons] at hnodup
    rw [List.replace_cons]
    by_cases hfirst : first = c
    · subst hfirst
      refine ⟨0, fun i ↦ ?_, by simp⟩
      cases i with
      | zero => simp
      | succ i => simpa using fun hi ↦ hnodup.1 (List.mem_of_getElem? hi)
    · have hrest : c ∈ rest := (List.mem_cons.mp hc).resolve_left (Ne.symm hfirst)
      obtain ⟨k, hk, hreplace⟩ := ih hnodup.2 hrest
      have hdiffers : (c == first) = false := beq_eq_false_iff_ne.mpr (Ne.symm hfirst)
      refine ⟨k + 1, fun i ↦ ?_, by simp [hdiffers, hreplace]⟩
      cases i with
      | zero => simp [hfirst]
      | succ i => simp [hk]

/-! ## The rule -/

namespace Actors

/-- The actors `b` come about from `a` by one move in the direction `d`. -/
inductive Moves (walkable : Coord → Prop) (d : Direction) (a : Actors) : Actors → Prop
  /-- The next cell is free. -/
  | walk {origin next : Coord} (hmole : a.mole = some origin) (hnext : origin.step? d = some next)
      (hwalk : walkable next) (hfree : next ∉ a.boxes) :
      Moves walkable d a { a with mole := some next }
  /-- The next cell holds a box, which can go one cell further. -/
  | push {origin next beyond : Coord} (hmole : a.mole = some origin)
      (hnext : origin.step? d = some next) (hwalk : walkable next) (hbox : next ∈ a.boxes)
      (hbeyond : next.step? d = some beyond) (hwalk' : walkable beyond)
      (hfree : beyond ∉ a.boxes) :
      Moves walkable d a { mole := some next, boxes := a.boxes.replace next beyond }

/-- Everything stands on walkable cells, each box on one of its own and the mole on none of
theirs. -/
structure Placed (walkable : Coord → Prop) (a : Actors) : Prop where
  mole_walkable : ∀ c, a.mole = some c → walkable c
  mole_free : ∀ c, a.mole = some c → c ∉ a.boxes
  boxes_walkable : ∀ c ∈ a.boxes, walkable c
  boxes_nodup : a.boxes.Nodup

variable {walkable walkable' : Coord → Prop} {d : Direction} {a b : Actors}

theorem Moves.imp (himp : ∀ c, walkable c → walkable' c) (h : a.Moves walkable d b) :
    a.Moves walkable' d b := by
  cases h with
  | walk hmole hnext hwalk hfree => exact .walk hmole hnext (himp _ hwalk) hfree
  | push hmole hnext hwalk hbox hbeyond hwalk' hfree =>
    exact .push hmole hnext (himp _ hwalk) hbox hbeyond (himp _ hwalk') hfree

theorem Placed.imp (himp : ∀ c, walkable c → walkable' c) (h : a.Placed walkable) :
    a.Placed walkable' where
  mole_walkable c hc := himp c (h.mole_walkable c hc)
  mole_free := h.mole_free
  boxes_walkable c hc := himp c (h.boxes_walkable c hc)
  boxes_nodup := h.boxes_nodup

theorem Moves.boxes_nodup (h : a.Moves walkable d b) (ha : a.boxes.Nodup) : b.boxes.Nodup := by
  cases h with
  | walk hmole hnext hwalk hfree => exact ha
  | push hmole hnext hwalk hbox hbeyond hwalk' hfree => exact nodup_replace ha hfree

/-- **A move leaves the actors placed.** -/
theorem Moves.placed (h : a.Moves walkable d b) (ha : a.Placed walkable) : b.Placed walkable := by
  have hnodup := h.boxes_nodup ha.boxes_nodup
  cases h with
  | walk hmole hnext hwalk hfree =>
    refine ⟨?_, ?_, ha.boxes_walkable, hnodup⟩
    · rintro c ⟨⟩
      exact hwalk
    · rintro c ⟨⟩
      exact hfree
  | @push origin next beyond hmole hnext hwalk hbox hbeyond hwalk' hfree =>
    refine ⟨?_, ?_, ?_, hnodup⟩
    · rintro c ⟨⟩
      exact hwalk
    · rintro c ⟨⟩
      exact not_mem_replace ha.boxes_nodup fun h ↦ hfree (h ▸ hbox)
    · intro c hc
      rcases mem_of_mem_replace hc with rfl | hc
      · exact hwalk'
      · exact ha.boxes_walkable c hc

end Actors

/-! ## Plans -/

namespace World

variable {w : World} {d : Direction} {p : Plan}

theorem plan?_eq_some_iff : w.plan? d = some p ↔
    ∃ origin next, w.actors.mole = some origin ∧ origin.step? d = some next ∧ next ∈ w.floor ∧
      (next ∉ w.actors.boxes ∧ p = ⟨origin, next, none⟩ ∨
        next ∈ w.actors.boxes ∧ ∃ beyond, next.step? d = some beyond ∧ beyond ∈ w.floor ∧
          beyond ∉ w.actors.boxes ∧ p = ⟨origin, next, some ⟨next, beyond⟩⟩) := by
  simp only [plan?, Option.bind_eq_bind, Option.bind_eq_some_iff]
  refine exists_congr fun origin ↦ ?_
  rw [← exists_and_left]
  refine exists_congr fun next ↦ and_congr_right fun _ ↦ and_congr_right fun _ ↦ ?_
  by_cases hfloor : next ∈ w.floor
  · by_cases hbox : next ∈ w.actors.boxes
    · simp [hfloor, hbox, Option.bind_eq_some_iff, and_assoc, @eq_comm _ p]
    · simp [hfloor, hbox, @eq_comm _ p]
  · simp [hfloor]

theorem moves_of_plan? (h : w.plan? d = some p) :
    w.actors.Moves (· ∈ w.floor) d (w.actorsAfter p) := by
  obtain ⟨origin, next, hmole, hnext, hfloor, h⟩ := plan?_eq_some_iff.mp h
  rcases h with ⟨hfree, rfl⟩ | ⟨hbox, beyond, hbeyond, hfloor', hfree, rfl⟩
  · exact .walk hmole hnext hfloor hfree
  · exact .push hmole hnext hfloor hbox hbeyond hfloor' hfree

theorem exists_plan?_of_moves {b : Actors} (h : w.actors.Moves (· ∈ w.floor) d b) :
    ∃ p, w.plan? d = some p ∧ w.actorsAfter p = b := by
  cases h with
  | walk hmole hnext hfloor hfree =>
    exact ⟨_, plan?_eq_some_iff.mpr ⟨_, _, hmole, hnext, hfloor, .inl ⟨hfree, rfl⟩⟩, rfl⟩
  | push hmole hnext hfloor hbox hbeyond hfloor' hfree =>
    exact ⟨_, plan?_eq_some_iff.mpr
      ⟨_, _, hmole, hnext, hfloor, .inr ⟨hbox, _, hbeyond, hfloor', hfree, rfl⟩⟩, rfl⟩

theorem exists_move?_of_moves {b : Actors} (h : w.actors.Moves (· ∈ w.floor) d b) :
    ∃ r, w.move? d = some r ∧ r.1.actors = b := by
  obtain ⟨p, hp, rfl⟩ := exists_plan?_of_moves h
  exact ⟨w.commit p, by rw [move?, hp]; rfl, rfl⟩

/-- **A world allows the moves of the rule, and no others.** -/
theorem canMove_iff : w.canMove d = true ↔ ∃ b, w.actors.Moves (· ∈ w.floor) d b := by
  rw [canMove, Option.isSome_iff_exists]
  constructor
  · rintro ⟨p, hp⟩
    exact ⟨_, moves_of_plan? hp⟩
  · rintro ⟨b, hb⟩
    obtain ⟨p, hp, _⟩ := exists_plan?_of_moves hb
    exact ⟨p, hp⟩

/-! ## Moves and travels -/

/-- A planned move changes the cells that hold boxes exactly when it pushes. -/
theorem sameBoxes_actorsAfter (h : w.plan? d = some p) :
    w.actors.sameBoxes (w.actorsAfter p) = p.push.isNone := by
  obtain ⟨origin, next, hmole, hnext, hfloor, h⟩ := plan?_eq_some_iff.mp h
  rcases h with ⟨hfree, rfl⟩ | ⟨hbox, beyond, hbeyond, hfloor', hfree, rfl⟩
  · exact Actors.sameBoxes_iff.mpr fun _ ↦ Iff.rfl
  · rw [Option.isNone_some, Bool.eq_false_iff, Ne, Actors.sameBoxes_iff]
    intro hsame
    exact hfree ((hsame beyond).mpr (mem_replace_of_mem hbox))

/-- **Making a move is going to a moment of the history** that has just been added. -/
theorem commit_eq_travel (h : w.plan? d = some p) :
    (w.commit p).1 = (w.travel countUp (w.actorsAfter p)
      ((if w.history.isEmpty then w.history.add w.actors else w.history).add
        (w.actorsAfter p))).1 := by
  simp only [commit, travel, sameBoxes_actorsAfter h]
  cases p.push <;> rfl

end World

end MolePuzzle
