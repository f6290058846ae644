import Mathlib.Data.List.Nodup
import MolePuzzle.Proofs.Moves

/-!
# The box that changed its cell

Two moments are compared by the sets of cells that hold boxes.  `Actors.boxChange?_eq_some_iff` says
when exactly one box has gone from one cell to another between them, without the lists in which the
boxes and the sets are kept.  It is the one relocation that turns the first set into the second
(`Actors.boxChange?_relocation`), whatever the order in which these lists are gone through.

A move that pushes is such a change, and any other move changes no box.  So by comparing two moments
of a game the push is found that led from one to the other, or back, and if none is found there was
none (`Actors.Moves.boxes_eq_of_boxChange?`).
-/

set_option autoImplicit false

namespace MolePuzzle

/-- A list without duplicates that has one member is the list of it. -/
theorem eq_singleton_iff_of_nodup {cells : List Coord} (hnodup : cells.Nodup) {c : Coord} :
    cells = [c] ↔ ∀ e, e ∈ cells ↔ e = c := by
  constructor
  · rintro rfl e
    exact List.mem_singleton
  · intro h
    have hsingle : [c].Nodup := List.nodup_singleton c
    refine List.perm_singleton.mp ((List.perm_ext_iff_of_nodup hnodup hsingle).mpr fun e ↦ ?_)
    rw [h, List.mem_singleton]

/-- A set that lists one cell has no other members. -/
theorem CellSet.toList_eq_singleton_iff {s : CellSet} {c : Coord} :
    s.toList = [c] ↔ ∀ e, e ∈ s ↔ e = c := by
  simp only [eq_singleton_iff_of_nodup (nodup_toList s), Std.ExtTreeSet.mem_toList]

namespace Push

/-- The way back. -/
def back (p : Push) : Push := ⟨p.destination, p.origin⟩

/-- The push from a cell that has lost its box to one that has got a box, if there is one cell of
either kind.  The cells are looked at in turn, in the order in which they are listed. -/
def readOff? (vacated entered : List Coord) : Option Push :=
  match vacated[0]?, entered[0]?, vacated[1]?, entered[1]? with
  | some origin, some destination, none, none => some ⟨origin, destination⟩
  | _, _, _, _ => none

theorem readOff?_eq_some_iff {vacated entered : List Coord} {p : Push} :
    readOff? vacated entered = some p ↔ vacated = [p.origin] ∧ entered = [p.destination] := by
  cases p
  rcases vacated with _ | ⟨origin, _ | ⟨origin', _⟩⟩ <;>
    rcases entered with _ | ⟨destination, _ | ⟨destination', _⟩⟩ <;> simp [readOff?]

end Push

namespace Actors

variable {walkable : Coord → Prop} {d : Direction} {a b : Actors} {p : Push}

/-- **One box has changed its cell** when one cell has lost its box and one has got a box. -/
theorem boxChange?_eq_some_iff : a.boxChange? b = some p ↔
    (∀ c, c ∈ a.boxes ∧ c ∉ b.boxes ↔ c = p.origin) ∧
      ∀ c, c ∈ b.boxes ∧ c ∉ a.boxes ↔ c = p.destination := by
  have hlists : a.boxChange? b = some p ↔ (a.boxSet \ b.boxSet).toList = [p.origin] ∧
      (b.boxSet \ a.boxSet).toList = [p.destination] := by
    rw [boxChange?]
    split
    · rename_i origin destination horigin hdestination
      cases p
      simp [horigin, hdestination]
    · rename_i hnot
      exact ⟨nofun, fun ⟨horigin, hdestination⟩ ↦ (hnot _ _ horigin hdestination).elim⟩
  rw [hlists, CellSet.toList_eq_singleton_iff, CellSet.toList_eq_singleton_iff]
  simp only [Std.ExtTreeSet.mem_diff_iff, mem_boxSet]

/-- Seen from the other end, the box goes the other way. -/
theorem boxChange?_symm (h : a.boxChange? b = some p) :
    b.boxChange? a = some p.back :=
  boxChange?_eq_some_iff.mpr (boxChange?_eq_some_iff.mp h).symm

/-- Where the same cells hold boxes, none has changed its cell. -/
theorem boxChange?_of_sameBoxes (h : a.sameBoxes b = true) : a.boxChange? b = none := by
  rw [Option.eq_none_iff_forall_ne_some]
  intro p hp
  obtain ⟨hin, hout⟩ := ((boxChange?_eq_some_iff.mp hp).1 p.origin).mpr rfl
  exact hout ((sameBoxes_iff.mp h _).mp hin)

theorem boxChange?_of_boxes_eq (h : a.boxes = b.boxes) : a.boxChange? b = none :=
  boxChange?_of_sameBoxes (sameBoxes_iff.mpr fun _ ↦ by rw [h])

/-- The change says all about the boxes there are afterwards. -/
theorem mem_boxes_iff_of_boxChange? (h : a.boxChange? b = some p) (c : Coord) :
    c ∈ b.boxes ↔ c = p.destination ∨ c ≠ p.origin ∧ c ∈ a.boxes := by
  obtain ⟨hleft, hright⟩ := boxChange?_eq_some_iff.mp h
  have hleft := hleft c
  have hright := hright c
  tauto

/-- Only the cells that hold boxes count, not how they are listed. -/
theorem boxChange?_congr {a' b' : Actors} (ha : ∀ c, c ∈ a'.boxes ↔ c ∈ a.boxes)
    (hb : ∀ c, c ∈ b'.boxes ↔ c ∈ b.boxes) : a'.boxChange? b' = a.boxChange? b := by
  refine Option.ext fun p ↦ ?_
  simp only [boxChange?_eq_some_iff, ha, hb]

theorem boxChange?_comm (a b : Actors) : b.boxChange? a = (a.boxChange? b).map Push.back := by
  refine Option.ext fun p ↦ ?_
  rw [Option.map_eq_some_iff]
  constructor
  · intro h
    exact ⟨p.back, boxChange?_symm h, rfl⟩
  · rintro ⟨q, hq, rfl⟩
    exact boxChange?_symm hq

/-- A push is found exactly if it turns the one set of cells into the other. -/
theorem boxChange?_eq_some_iff_boxSet : a.boxChange? b = some p ↔
    (p.origin ∈ a.boxes ∧ p.origin ∉ b.boxes) ∧
      (p.destination ∈ b.boxes ∧ p.destination ∉ a.boxes) ∧
        (CellSet.add (CellSet.remove a.boxSet p.origin).2 p.destination).2 = b.boxSet := by
  have hset : (CellSet.add (CellSet.remove a.boxSet p.origin).2 p.destination).2 = b.boxSet ↔
      ∀ c, c ∈ b.boxes ↔ c = p.destination ∨ c ≠ p.origin ∧ c ∈ a.boxes := by
    rw [Std.ExtTreeSet.ext_mem_iff]
    refine forall_congr' fun c ↦ ?_
    rw [CellSet.mem_add, CellSet.mem_remove, mem_boxSet, mem_boxSet]
    exact Iff.comm
  rw [hset]
  constructor
  · intro h
    obtain ⟨hleft, hright⟩ := boxChange?_eq_some_iff.mp h
    exact ⟨(hleft _).mpr rfl, (hright _).mpr rfl, mem_boxes_iff_of_boxChange? h⟩
  · rintro ⟨⟨horigin, horigin'⟩, ⟨hdestination, hdestination'⟩, hmem⟩
    rw [boxChange?_eq_some_iff]
    refine ⟨fun c ↦ ⟨?_, ?_⟩, fun c ↦ ⟨?_, ?_⟩⟩
    · rintro ⟨hin, hout⟩
      by_contra hc
      exact hout ((hmem c).mpr (.inr ⟨hc, hin⟩))
    · rintro rfl
      exact ⟨horigin, horigin'⟩
    · rintro ⟨hin, hout⟩
      exact ((hmem c).mp hin).resolve_right fun h ↦ hout h.2
    · rintro rfl
      exact ⟨hdestination, hdestination'⟩

/-- **The order in which the cells are gone through makes no difference.** -/
theorem readOff?_eq_boxChange? {vacated entered : List Coord} (hvacated : vacated.Nodup)
    (hentered : entered.Nodup) (hleft : ∀ c, c ∈ vacated ↔ c ∈ a.boxes ∧ c ∉ b.boxes)
    (hright : ∀ c, c ∈ entered ↔ c ∈ b.boxes ∧ c ∉ a.boxes) :
    Push.readOff? vacated entered = a.boxChange? b := by
  refine Option.ext fun p ↦ ?_
  rw [Push.readOff?_eq_some_iff, eq_singleton_iff_of_nodup hvacated,
    eq_singleton_iff_of_nodup hentered, boxChange?_eq_some_iff]
  simp only [hleft, hright]

theorem sameBoxes_equivalence : Equivalence fun a b : Actors ↦ a.sameBoxes b = true where
  refl _ := sameBoxes_iff.mpr fun _ ↦ Iff.rfl
  symm h := sameBoxes_iff.mpr fun c ↦ (sameBoxes_iff.mp h c).symm
  trans h h' := sameBoxes_iff.mpr fun c ↦ (sameBoxes_iff.mp h c).trans (sameBoxes_iff.mp h' c)

/-- **The change between two moments is the one relocation there is.**  Let the boxes of both be
listed in any order, and any number of times.

* A push is found exactly if it leaves a cell that has a box at the first moment only for one that
  has a box at the second only, and taking the one cell out and putting the other in turns the first
  set of boxes into the second.
* It depends on the cells that hold boxes alone: not on how the boxes are listed, and not on the
  order in which the cells that have lost or got a box are gone through.
* Seen from the other end it is the way back, and there is none exactly if there is none.
* Having boxes on the same cells is an equivalence, and there is no change between such moments. -/
theorem boxChange?_relocation (a b : Actors) :
    (∀ p, a.boxChange? b = some p ↔
      (p.origin ∈ a.boxes ∧ p.origin ∉ b.boxes) ∧
        (p.destination ∈ b.boxes ∧ p.destination ∉ a.boxes) ∧
          (CellSet.add (CellSet.remove a.boxSet p.origin).2 p.destination).2 = b.boxSet) ∧
      (∀ a' b' : Actors, (∀ c, c ∈ a'.boxes ↔ c ∈ a.boxes) → (∀ c, c ∈ b'.boxes ↔ c ∈ b.boxes) →
        a'.boxChange? b' = a.boxChange? b) ∧
      (∀ vacated entered : List Coord, vacated.Nodup → entered.Nodup →
        (∀ c, c ∈ vacated ↔ c ∈ a.boxes ∧ c ∉ b.boxes) →
        (∀ c, c ∈ entered ↔ c ∈ b.boxes ∧ c ∉ a.boxes) →
        Push.readOff? vacated entered = a.boxChange? b) ∧
      b.boxChange? a = (a.boxChange? b).map Push.back ∧
      (b.boxChange? a = none ↔ a.boxChange? b = none) ∧
      (a.sameBoxes b = true → a.boxChange? b = none) ∧
      Equivalence fun a b : Actors ↦ a.sameBoxes b = true := by
  refine ⟨fun _ ↦ boxChange?_eq_some_iff_boxSet, fun _ _ ↦ boxChange?_congr,
    fun _ _ ↦ readOff?_eq_boxChange?, boxChange?_comm a b, ?_, boxChange?_of_sameBoxes,
    sameBoxes_equivalence⟩
  rw [boxChange?_comm a b, Option.map_eq_none_iff]

/-- Boxes that are listed twice and in another order, and two of them that have changed places. -/
theorem boxChange?_relocation_shuffled :
    let cell (k : UInt32) : Coord := ⟨k, 0⟩
    let a : Actors := ⟨some (cell 0), [cell 1, cell 4, cell 1]⟩
    let b : Actors := ⟨some (cell 1), [cell 4, cell 2, cell 4]⟩
    let a' : Actors := ⟨none, [cell 4, cell 1]⟩
    let b' : Actors := ⟨none, [cell 2, cell 4, cell 2]⟩
    let p : Push := ⟨cell 1, cell 2⟩
    a.boxChange? b = some p ∧ b.boxChange? a = some ⟨cell 2, cell 1⟩ ∧
      ((∀ c, c ∈ a'.boxes ↔ c ∈ a.boxes) ∧ (∀ c, c ∈ b'.boxes ↔ c ∈ b.boxes) ∧
        a'.boxChange? b' = some p) ∧
      ([cell 1].Nodup ∧ [cell 2].Nodup ∧ (∀ c, c ∈ [cell 1] ↔ c ∈ a.boxes ∧ c ∉ b.boxes) ∧
        (∀ c, c ∈ [cell 2] ↔ c ∈ b.boxes ∧ c ∉ a.boxes) ∧
        Push.readOff? [cell 1] [cell 2] = some p) ∧
      a.sameBoxes a' = true ∧ a.boxChange? a' = none := by
  intro cell a b a' b' p
  obtain ⟨hpush, hlisted, hread, hback, -, -, -⟩ := boxChange?_relocation a b
  obtain ⟨-, -, -, -, -, hsame, -⟩ := boxChange?_relocation a a'
  have hne : cell 1 ≠ cell 2 ∧ cell 1 ≠ cell 4 ∧ cell 2 ≠ cell 4 := by decide
  have hp : a.boxChange? b = some p := (hpush p).mpr ⟨by decide, by decide, by decide⟩
  have ha : ∀ c, c ∈ a'.boxes ↔ c ∈ a.boxes := by simp [a, a', or_comm]
  have hb : ∀ c, c ∈ b'.boxes ↔ c ∈ b.boxes := by simp [b, b', or_comm]
  have hleft : ∀ c, c ∈ [cell 1] ↔ c ∈ a.boxes ∧ c ∉ b.boxes := by
    simp only [a, b, List.mem_cons, List.not_mem_nil, or_false]
    grind
  have hright : ∀ c, c ∈ [cell 2] ↔ c ∈ b.boxes ∧ c ∉ a.boxes := by
    simp only [a, b, List.mem_cons, List.not_mem_nil, or_false]
    grind
  have hsame' : a.sameBoxes a' = true := by decide
  exact ⟨hp, by rw [hback, hp]; rfl, ⟨ha, hb, (hlisted a' b' ha hb).trans hp⟩,
    ⟨List.nodup_singleton _, List.nodup_singleton _, hleft, hright,
      (hread _ _ (List.nodup_singleton _) (List.nodup_singleton _) hleft hright).trans hp⟩,
    hsame', hsame hsame'⟩

/-! ## Moves -/

/-- A push is the change it makes. -/
theorem boxChange?_replace {next beyond : Coord} (hnodup : a.boxes.Nodup) (hbox : next ∈ a.boxes)
    (hfree : beyond ∉ a.boxes) (hb : b.boxes = a.boxes.replace next beyond) :
    a.boxChange? b = some ⟨next, beyond⟩ := by
  have hne : next ≠ beyond := fun h ↦ hfree (h ▸ hbox)
  rw [boxChange?_eq_some_iff, hb]
  refine ⟨fun c ↦ ⟨?_, ?_⟩, fun c ↦ ⟨?_, ?_⟩⟩
  · rintro ⟨hin, hout⟩
    by_contra hc
    exact hout (mem_replace_of_ne hin hc)
  · rintro rfl
    exact ⟨hbox, not_mem_replace hnodup hne⟩
  · rintro ⟨hin, hout⟩
    exact (mem_of_mem_replace hin).resolve_right hout
  · rintro rfl
    exact ⟨mem_replace_of_mem hbox, hfree⟩

/-- **A move is told in full by the change it makes**: if none is found, there is none. -/
theorem Moves.boxes_eq_of_boxChange? (h : a.Moves walkable d b) (hnodup : a.boxes.Nodup)
    (hnone : a.boxChange? b = none) : a.boxes = b.boxes := by
  cases h with
  | walk hmole hnext hwalk hfree => rfl
  | push hmole hnext hwalk hbox hbeyond hwalk' hfree =>
    rw [boxChange?_replace hnodup hbox hfree rfl] at hnone
    cases hnone

end Actors

/-- What a plan says of a box is the change that is made. -/
theorem World.boxChange?_actorsAfter {w : World} {d : Direction} {p : Plan}
    (hp : w.plan? d = some p) (hnodup : w.actors.boxes.Nodup) :
    w.actors.boxChange? (w.actorsAfter p) = p.push := by
  obtain ⟨origin, next, -, -, -, h⟩ := plan?_eq_some_iff.mp hp
  rcases h with ⟨-, rfl⟩ | ⟨hbox, beyond, -, -, hfree, rfl⟩
  · exact Actors.boxChange?_of_boxes_eq rfl
  · exact Actors.boxChange?_replace hnodup hbox hfree rfl

end MolePuzzle
