import Mathlib.Data.List.Perm.Subperm
import MolePuzzle.Proofs.Onlooker
import MolePuzzle.Proofs.Winning
import MolePuzzle.Validation

/-!
# What the check of a level tells of playing it

What the check of a level finds wrong with it is wrong for good, as far as playing goes
(`World.validate_sound`).

* Without a mole nothing can be played.  The remembered moments of a game are one move apart, and a
  move has a mole before it and after it, so there is no moment to go to either.
* With fewer boxes than targets the level is never solved.  A move gives no box away and takes none
  in, so the boxes are as many at every moment of a game, and never enough.

Of a level that is won the check cannot say the latter, whatever has been done to it: each target
has a box then, and no two of them the same (`World.enough_boxes_of_won`).
-/

set_option autoImplicit false

namespace MolePuzzle

variable {walkable : Coord → Prop} {d : Direction} {a b : Actors}

/-! ## What a move takes for granted -/

/-- There are as many boxes after a move as before it. -/
theorem Actors.Moves.length_boxes (h : a.Moves walkable d b) :
    b.boxes.length = a.boxes.length := by
  cases h with
  | walk hmole hnext hwalk hfree => rfl
  | push hmole hnext hwalk hbox hbeyond hwalk' hfree => exact List.length_replace

/-- There is a mole before a move and after it. -/
theorem Actors.Moves.mole_ne_none (h : a.Moves walkable d b) :
    a.mole ≠ none ∧ b.mole ≠ none := by
  cases h with
  | walk hmole hnext hwalk hfree => exact ⟨by simp [hmole], by simp⟩
  | push hmole hnext hwalk hbox hbeyond hwalk' hfree => exact ⟨by simp [hmole], by simp⟩

/-- Targets that are covered have as many boxes, since no box covers two. -/
theorem Layout.length_targets_le {l : Layout} (hnodup : l.targets.Nodup)
    (hcovered : l.covered = true) : l.targets.length ≤ l.actors.boxes.length :=
  (List.Nodup.subperm hnodup (Layout.covered_iff.mp hcovered)).length_le

/-- Fewer boxes than targets leave a target uncovered, wherever they stand. -/
theorem Layout.covered_eq_false_of_length_lt {l : Layout} (hnodup : l.targets.Nodup)
    (hlength : l.actors.boxes.length < l.targets.length) : l.covered = false := by
  rw [← Bool.not_eq_true]
  exact fun hcovered ↦ Nat.not_lt.mpr (length_targets_le hnodup hcovered) hlength

namespace World

variable {w : World}

/-! ## The issues -/

theorem validate_eq_missingMole_iff :
    w.validate = .error .missingMole ↔ w.actors.mole = none := by
  rw [validate]
  split
  · simp_all
  · split <;> simp_all

theorem validate_eq_targetsExceedBoxes_iff {targets boxes : Nat} :
    w.validate = .error (.targetsExceedBoxes targets boxes) ↔
      w.actors.mole ≠ none ∧ w.actors.boxes.length < w.targets.length ∧
        w.targets.length = targets ∧ w.actors.boxes.length = boxes := by
  rw [validate]
  split
  · simp_all
  · split <;> simp_all

theorem validate_eq_ok_iff :
    w.validate = .ok () ↔
      w.actors.mole ≠ none ∧ w.targets.length ≤ w.actors.boxes.length := by
  rw [validate]
  split
  · simp_all
  · split <;> simp_all

/-! ## Without a mole -/

/-- A game without a mole has neither a move nor another moment. -/
theorem Lawful.play?_eq_none (h : w.Lawful walkable) (hfloor : ∀ c ∈ w.floor, walkable c)
    (hmole : w.actors.mole = none) (p : Play) : w.play? p = none := by
  rw [Option.eq_none_iff_forall_ne_some]
  intro r hr
  obtain ⟨_, b, _, _, -, -, hmoves | hmoves⟩ := h.exists_travel hfloor hr
  · exact hmoves.mole_ne_none.1 hmole
  · exact hmoves.mole_ne_none.2 hmole

/-- Where nothing is allowed, a script does nothing. -/
theorem play_eq_self (h : ∀ p : Play, w.play? p = none) (script : List Play) :
    w.play script = (w, []) := by
  induction script with
  | nil => rfl
  | cons p rest ih =>
    have hstay : w.apply p.command = (w, []) := by rw [apply_play, h p, Option.getD_none]
    rw [play, List.map_cons, applyAll, hstay]
    dsimp only
    rw [← play, ih]
    rfl

/-! ## Without enough boxes -/

/-- **Plays keep the number of boxes.** -/
theorem Contained.length_boxes_play (h : w.Contained) (p : Play) :
    (w.apply p.command).1.actors.boxes.length = w.actors.boxes.length := by
  rw [apply_play]
  cases hp : w.play? p with
  | none => rfl
  | some r =>
    obtain ⟨_, b, _, _, rfl, -, hmoves | hmoves⟩ := h.lawful.exists_travel h.charted.floor_mem hp
    · exact hmoves.length_boxes
    · exact hmoves.length_boxes.symm

/-- A game on a field that has fewer boxes than targets. -/
structure Unsolvable (w : World) : Prop where
  contained : w.Contained
  judged : w.Judged
  size_ne : w.field.size ≠ {}
  targets_nodup : w.targets.Nodup
  boxes_lt : w.actors.boxes.length < w.targets.length

namespace Unsolvable

theorem covered_eq_false (h : w.Unsolvable) : w.covered = false :=
  Layout.covered_eq_false_of_length_lt h.targets_nodup h.boxes_lt

theorem won_eq_false (h : w.Unsolvable) : w.won = false := by
  rw [h.judged.won_eq h.size_ne, h.covered_eq_false]

/-- **Playing does not make a level solvable.** -/
theorem play (h : w.Unsolvable) (p : Play) : (w.apply p.command).1.Unsolvable := by
  obtain ⟨hfield, -, htargets, -⟩ := w.play_frame p
  exact {
    contained := h.contained.play p
    judged := h.judged.play p
    size_ne := hfield ▸ h.size_ne
    targets_nodup := htargets ▸ h.targets_nodup
    boxes_lt := by
      rw [h.contained.length_boxes_play p, htargets]
      exact h.boxes_lt }

/-- No play tells that the level is solved. -/
theorem solved_not_mem_play (h : w.Unsolvable) (script : List Play) (n : Nat) :
    .solved n ∉ (w.play script).2 := by
  induction script generalizing w with
  | nil => exact List.not_mem_nil
  | cons p rest ih =>
    intro hmem
    rcases List.mem_append.mp hmem with hfirst | hlater
    · obtain ⟨-, -, hcovered, -⟩ := (h.judged.solved_mem_play_iff p n).mp hfirst
      rw [(h.play p).covered_eq_false] at hcovered
      cases hcovered
    · exact ih (h.play p) hlater

end Unsolvable

/-! ## Drives -/

/-- **The issues of a level are sound.**  Let a world have been checked after any drive.  If the
mole was found missing, every script does nothing and tells nothing, and nothing is allowed ever
after.  If the targets were found to exceed the boxes, no script wins the level or tells that it is
solved. -/
theorem validate_sound (acts : List Act) :
    let w := (drive {} acts).1
    (w.validate = .error .missingMole →
      ∀ script : List Play, w.play script = (w, []) ∧ ∀ p, (w.play script).1.play? p = none) ∧
    ∀ targets boxes, w.validate = .error (.targetsExceedBoxes targets boxes) →
      ∀ script : List Play, (w.play script).1.won = false ∧ ∀ n, .solved n ∉ (w.play script).2 := by
  intro w
  have hcontained : w.Contained := contained_drive acts
  refine ⟨fun hissue script ↦ ?_, fun targets boxes hissue script ↦ ?_⟩
  · have hmole := validate_eq_missingMole_iff.mp hissue
    have hnone := hcontained.lawful.play?_eq_none hcontained.charted.floor_mem hmole
    rw [play_eq_self hnone script]
    exact ⟨rfl, hnone⟩
  · obtain ⟨hmole, hlength, -, -⟩ := validate_eq_targetsExceedBoxes_iff.mp hissue
    have hsize : w.field.size ≠ {} := by
      obtain ⟨c, hc⟩ := Option.ne_none_iff_exists'.mp hmole
      have hin := hcontained.lawful.placed.mole_walkable c hc
      intro hempty
      rw [hempty] at hin
      exact absurd hin.1 UInt32.not_lt_zero
    have hdistinct : w.Distinct :=
      drive_induction (P := Distinct) (fun _ input h ↦ h.respond input) distinct_empty acts
    have hjudged : w.Judged :=
      drive_induction (P := Judged) (fun _ input h ↦ h.respond input) judged_empty acts
    have h : w.Unsolvable := ⟨hcontained, hjudged, hsize, hdistinct.targets_nodup, hlength⟩
    have hlast : (w.play script).1.Unsolvable :=
      play_induction (P := Unsolvable) (fun _ p h ↦ h.play p) h script
    exact ⟨hlast.won_eq_false, h.solved_not_mem_play script⟩

/-- The mole is painted over after a push, which leaves a game without a mole; and a box is, which
leaves one target too many. -/
theorem validate_sound_painted_over :
    let level : Act := .load (.rows [['M', 'B', 'F', 'T', 'A']])
    let push : Act := .play (.move .right)
    let w := (drive {} [level, push, .click ⟨.wall⟩ ⟨some ⟨1, 0⟩, false⟩]).1
    let v := (drive {} [level, push, .click ⟨.target⟩ ⟨some ⟨2, 0⟩, false⟩]).1
    (w.validate = .error .missingMole ∧
      ∀ script : List Play, w.play script = (w, []) ∧ ∀ p, (w.play script).1.play? p = none) ∧
    (v.validate = .error (.targetsExceedBoxes 3 1) ∧
      ∀ script : List Play, (v.play script).1.won = false ∧ ∀ n, .solved n ∉ (v.play script).2) := by
  intro level push w v
  have hw : w.validate = .error .missingMole := by decide
  have hv : v.validate = .error (.targetsExceedBoxes 3 1) := by decide
  exact ⟨⟨hw, (validate_sound _).1 hw⟩, hv, (validate_sound _).2 _ _ hv⟩

/-! ## Won levels -/

/-- **A won level has a box for every target.**  After any commands and levels no cell is listed
twice, neither among the boxes, now or at any remembered moment, nor among the targets.  As long as
the world is won there are at least as many boxes as targets, so the check does not find the
contrary. -/
theorem enough_boxes_of_won (inputs : List Input) :
    let w := (run {} inputs).1
    w.actors.boxes.Nodup ∧ w.targets.Nodup ∧ (∀ a ∈ w.history.entries, a.boxes.Nodup) ∧
      (w.won = true → w.targets.length ≤ w.actors.boxes.length ∧
        ∀ targets boxes, w.validate ≠ .error (.targetsExceedBoxes targets boxes)) := by
  intro w
  have hdistinct : w.Distinct := distinct_run inputs
  refine ⟨hdistinct.boxes_nodup, hdistinct.targets_nodup, hdistinct.entries_nodup, fun hwon ↦ ?_⟩
  have hle : w.targets.length ≤ w.actors.boxes.length :=
    Layout.length_targets_le hdistinct.targets_nodup (covered_of_won_run inputs hwon)
  refine ⟨hle, fun targets boxes hissue ↦ ?_⟩
  obtain ⟨-, hlt, -, -⟩ := validate_eq_targetsExceedBoxes_iff.mp hissue
  exact Nat.not_lt.mpr hle hlt

/-- A target and a box are set outside of the field, the box twice, before the last push. -/
theorem enough_boxes_of_won_outside :
    let inputs : List Input := [.load (.rows [['M', 'B', 'T']]),
      .command (.setTarget ⟨7, 7⟩ true), .command (.setBox ⟨7, 7⟩ true),
      .command (.setBox ⟨7, 7⟩ true), .command (.move .right)]
    let w := (run {} inputs).1
    w.actors.boxes = [⟨2, 0⟩, ⟨7, 7⟩] ∧ w.actors.boxes.Nodup ∧ w.history.size = 2 ∧
      (∀ a ∈ w.history.entries, a.boxes.Nodup) ∧ w.won = true ∧
      w.targets.length ≤ w.actors.boxes.length ∧
      ∀ targets boxes, w.validate ≠ .error (.targetsExceedBoxes targets boxes) := by
  intro inputs w
  have hwon : w.won = true := by decide
  obtain ⟨hboxes, -, hentries, hsuffice⟩ := enough_boxes_of_won inputs
  obtain ⟨hle, hcheck⟩ := hsuffice hwon
  exact ⟨by decide, hboxes, by decide, hentries, hwon, hle, hcheck⟩

end World

end MolePuzzle
