import MolePuzzle.Proofs.Playable
import MolePuzzle.Proofs.SaveContents
import MolePuzzle.Proofs.WellFormed

/-!
# A level that has been checked is saved as one

The check of a level counts the boxes and targets that a world lists, and level text has one glyph a
cell, so a list with entries that share a cell would come back shorter.  In a well-formed world no
entries do, except that the mole may stand on a target.  What is written of it is its mole, all its
boxes and all its other targets, in another order (`Layout.perm_boxes_written` and
`Layout.perm_targets_written`).

The lost target is one that needs a box less.  So what passes the check before it is saved passes it
after it is loaded (`World.validate_saved`).
-/

set_option autoImplicit false

namespace MolePuzzle

namespace Layout

variable {l : Layout}

/-! ## What is written of actors and targets on floor -/

/-- A mole on floor is written. -/
theorem mole_written_of_placed (h : l.actors.Placed l.field.IsFloor) :
    l.written.actors.mole = l.actors.mole := by
  refine Option.ext fun c ↦ ?_
  rw [mole_written]
  exact and_iff_right_of_imp (h.mole_walkable c)

/-- Boxes that are placed are written, all of them. -/
theorem perm_boxes_written (h : l.actors.Placed l.field.IsFloor) :
    l.written.actors.boxes.Perm l.actors.boxes := by
  have hnodup : l.written.actors.boxes.Nodup :=
    (placed_ofGlyphs l.field.size l.glyphAt).boxes_nodup
  rw [List.perm_ext_iff_of_nodup hnodup h.boxes_nodup]
  intro c
  rw [mem_boxes_written, ← and_assoc]
  exact and_iff_right_of_imp fun hbox ↦
    ⟨h.boxes_walkable c hbox, fun hmole ↦ h.mole_free c hmole hbox⟩

/-- Targets on floor are written, all but the one under the mole. -/
theorem perm_targets_written (hfloor : ∀ c ∈ l.targets, l.field.IsFloor c)
    (hnodup : l.targets.Nodup) :
    l.written.targets.Perm (l.targets.filter fun c ↦ l.actors.mole ≠ some c) := by
  have hwritten : l.written.targets.Nodup := nodup_targets_ofGlyphs l.field.size l.glyphAt
  rw [List.perm_ext_iff_of_nodup hwritten (hnodup.filter _)]
  intro c
  rw [mem_targets_written, List.mem_filter, decide_eq_true_iff, and_comm (a := c ∈ l.targets)]
  exact and_iff_right_of_imp fun h ↦ hfloor c h.2

/-- Nothing is lost of the targets while the mole is on none of them. -/
theorem length_targets_written (hfloor : ∀ c ∈ l.targets, l.field.IsFloor c)
    (hnodup : l.targets.Nodup) (hmole : ∀ c ∈ l.targets, l.actors.mole ≠ some c) :
    l.written.targets.length = l.targets.length := by
  rw [(perm_targets_written hfloor hnodup).length_eq, List.filter_eq_self.mpr]
  exact fun c hc ↦ decide_eq_true (hmole c hc)

/-- With the mole on a target, this is the one that is lost. -/
theorem length_targets_written_of_mole {c : Coord} (hfloor : ∀ c ∈ l.targets, l.field.IsFloor c)
    (hnodup : l.targets.Nodup) (hmole : l.actors.mole = some c) (hc : c ∈ l.targets) :
    l.written.targets.length + 1 = l.targets.length := by
  have hkept : (l.targets.filter fun e ↦ l.actors.mole ≠ some e) = l.targets.erase c := by
    rw [hnodup.erase_eq_filter]
    refine List.filter_congr fun e _ ↦ ?_
    rw [hmole, Bool.eq_iff_iff, decide_eq_true_iff, bne_iff_ne, Ne, Option.some.injEq, eq_comm]
  rw [(perm_targets_written hfloor hnodup).length_eq, hkept, List.length_erase_of_mem hc]
  exact Nat.sub_add_cancel (List.length_pos_of_mem hc)

end Layout

namespace World

/-- **A level that has been checked is saved as one.**  If the check finds nothing wrong with the
world at the end of a drive, its level text can be loaded, and the check finds nothing wrong with
what is loaded.  That has the same mole, as many boxes, and as many targets, except that a target
under the mole is lost.  The fields on the way must not have more cells than words can number. -/
theorem validate_saved (acts : List Act)
    (hfits : ∀ past ∈ acts.inits, (drive {} past).1.field.size.FitsWord)
    (hvalid : (drive {} acts).1.validate = .ok ()) :
    let w := (drive {} acts).1
    ∃ reloaded, ofBytes w.bytes = .ok reloaded ∧ reloaded.validate = .ok () ∧
      reloaded.actors.mole = w.actors.mole ∧
      reloaded.actors.boxes.length = w.actors.boxes.length ∧
      ((∀ c ∈ w.targets, w.actors.mole ≠ some c) → reloaded.targets.length = w.targets.length) ∧
      ((∃ c ∈ w.targets, w.actors.mole = some c) →
        reloaded.targets.length + 1 = w.targets.length) := by
  intro w
  have hordered : w.Ordered := ordered_drive acts hfits
  have hplaced := hordered.lawful.placed
  obtain ⟨hsome, hle⟩ := validate_eq_ok_iff.mp hvalid
  obtain ⟨c, hc⟩ := Option.ne_none_iff_exists'.mp hsome
  have hcells : w.field.size.isEmpty = false :=
    Size.isEmpty_eq_false_of_mem (Field.mem_size_of_at? (hplaced.mole_walkable c hc))
  have hmole : w.written.actors.mole = w.actors.mole := Layout.mole_written_of_placed hplaced
  have hboxes : w.written.actors.boxes.length = w.actors.boxes.length :=
    (Layout.perm_boxes_written hplaced).length_eq
  have hfree : (∀ c ∈ w.targets, w.actors.mole ≠ some c) →
      w.written.targets.length = w.targets.length :=
    Layout.length_targets_written hordered.targets_floor hordered.targets_nodup
  have hlost : (∃ c ∈ w.targets, w.actors.mole = some c) →
      w.written.targets.length + 1 = w.targets.length := fun ⟨_, htarget, hon⟩ ↦
    Layout.length_targets_written_of_mole hordered.targets_floor hordered.targets_nodup hon htarget
  have htargets : w.written.targets.length ≤ w.targets.length := by
    by_cases hon : ∃ c ∈ w.targets, w.actors.mole = some c
    · exact Nat.le_of_succ_le (hlost hon).le
    · exact (hfree fun c htarget hmole ↦ hon ⟨c, htarget, hmole⟩).le
  refine ⟨_, ofBytes_bytes hcells, validate_eq_ok_iff.mpr ⟨?_, ?_⟩, hmole, hboxes, hfree, hlost⟩
  · show w.written.actors.mole ≠ none
    rwa [hmole]
  · show w.written.targets.length ≤ w.written.actors.boxes.length
    rw [hboxes]
    exact htargets.trans hle

/-- The mole goes onto a target, a box is painted onto another, and the level is saved. -/
theorem validate_saved_on_target :
    let acts : List Act := [.load (.rows [['M', 'T', 'B'], ['T']]), .play (.move .right),
      .click ⟨.placedBox⟩ ⟨some ⟨0, 1⟩, false⟩]
    let w := (drive {} acts).1
    (∀ past ∈ acts.inits, (drive {} past).1.field.size.FitsWord) ∧ w.validate = .ok () ∧
      (∃ c ∈ w.targets, w.actors.mole = some c) ∧ w.targets.length = 2 ∧
      ∃ reloaded, ofBytes w.bytes = .ok reloaded ∧ reloaded.validate = .ok () ∧
        reloaded.actors.boxes.length = 2 ∧ reloaded.targets.length = 1 := by
  intro acts w
  have hfits : ∀ past ∈ acts.inits, (drive {} past).1.field.size.FitsWord := by decide
  have hvalid : w.validate = .ok () := by decide
  have hon : ∃ c ∈ w.targets, w.actors.mole = some c := by decide
  have htargets : w.targets.length = 2 := by decide
  have hboxes : w.actors.boxes.length = 2 := by decide
  obtain ⟨reloaded, hreload, hvalid', -, hlength, -, hlost⟩ := validate_saved acts hfits hvalid
  exact ⟨hfits, hvalid, hon, htargets, reloaded, hreload, hvalid', hlength.trans hboxes,
    Nat.succ.inj ((hlost hon).trans htargets)⟩

end World

end MolePuzzle
