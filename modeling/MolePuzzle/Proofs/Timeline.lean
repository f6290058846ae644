import Mathlib.Data.List.Basic
import MolePuzzle.History

/-!
# The history as a timeline

A history that has been started consists of a past, a present moment and a future.
`History.ofParts` is the history made of the given three, and the equations of this file say what
becomes of them: a new moment sends the present into the past and forgets the future, going back
and going forth move the present by one.  Everything that is proved about histories elsewhere is
proved through these equations, never through the array and the cursor.

`History.present?` is the moment under the cursor, whatever the history, and `History.Shows` is what
everything else relies on: that a history, once started, has a certain moment as its present.
-/

set_option autoImplicit false

namespace MolePuzzle.History

/-- The moment under the cursor. -/
def present? (h : History) : Option Actors := h.cursor.bind fun k ↦ h.entries[k]?

/-- The history with the given past, oldest moment first, the given present, and the given future,
soonest moment first. -/
def ofParts (past : List Actors) (present : Actors) (future : List Actors) : History :=
  ⟨(past ++ present :: future).toArray, some past.length⟩

variable {past future : List Actors} {a b : Actors}

@[simp] theorem toList_entries_ofParts :
    (ofParts past a future).entries.toList = past ++ a :: future := rfl

@[simp] theorem isEmpty_ofParts : (ofParts past a future).isEmpty = false := by
  simp [isEmpty, ofParts]

@[simp] theorem present?_ofParts : (ofParts past a future).present? = some a := by
  simp [present?, ofParts]

theorem start_eq_ofParts (a : Actors) : start a = ofParts [] a [] := rfl

theorem add_ofParts : (ofParts past a future).add b = ofParts (past ++ [a]) b [] := by
  have htake : (past ++ a :: future).take (past.length + 1) = past ++ [a] := by
    rw [List.take_append, List.take_of_length_le (by omega)]
    simp
  simp [add, ofParts, htake]

/-! ## Going back -/

theorem canUndo_ofParts : (ofParts past a future).canUndo = true ↔ past ≠ [] := by
  simp [canUndo, ofParts, List.length_pos_iff]

theorem undo?_ofParts_nil : (ofParts [] a future).undo? = none := rfl

theorem undo?_ofParts_concat :
    (ofParts (past ++ [b]) a future).undo? = some (b, ofParts past b (a :: future)) := by
  simp [undo?, goTo?, ofParts]

theorem undo?_ofParts_eq_some_iff {h : History} :
    (ofParts past a future).undo? = some (b, h) ↔
      ∃ early, past = early ++ [b] ∧ h = ofParts early b (a :: future) := by
  rcases List.eq_nil_or_concat' past with rfl | ⟨early, c, rfl⟩
  · simp [undo?_ofParts_nil]
  · rw [undo?_ofParts_concat, Option.some.injEq, Prod.mk.injEq]
    constructor
    · rintro ⟨rfl, rfl⟩
      exact ⟨early, rfl, rfl⟩
    · rintro ⟨early', hpast, rfl⟩
      obtain ⟨rfl, hc⟩ := List.append_inj' hpast rfl
      cases hc
      exact ⟨rfl, rfl⟩

/-! ## Going forth -/

theorem canRedo_ofParts : (ofParts past a future).canRedo = true ↔ future ≠ [] := by
  simp [canRedo, ofParts, List.length_pos_iff]

theorem redo?_ofParts_nil : (ofParts past a []).redo? = none := by
  simp [redo?, goTo?, ofParts]

theorem redo?_ofParts_cons :
    (ofParts past a (b :: future)).redo? = some (b, ofParts (past ++ [a]) b future) := by
  simp [redo?, goTo?, ofParts]

theorem redo?_ofParts_eq_some_iff {h : History} :
    (ofParts past a future).redo? = some (b, h) ↔
      ∃ late, future = b :: late ∧ h = ofParts (past ++ [a]) b late := by
  cases future with
  | nil => simp [redo?_ofParts_nil]
  | cons c late =>
    rw [redo?_ofParts_cons, Option.some.injEq, Prod.mk.injEq]
    constructor
    · rintro ⟨rfl, rfl⟩
      exact ⟨late, rfl, rfl⟩
    · rintro ⟨_, ⟨⟩, rfl⟩
      exact ⟨rfl, rfl⟩

/-! ## The moment that a history shows -/

/-- The history has not been started, or its present moment is the given one. -/
def Shows (h : History) (a : Actors) : Prop := h = {} ∨ ∃ past future, h = ofParts past a future

theorem shows_empty (a : Actors) : Shows {} a := .inl rfl

theorem shows_ofParts : (ofParts past a future).Shows a := .inr ⟨past, future, rfl⟩

theorem shows_start (a : Actors) : (start a).Shows a := .inr ⟨[], [], rfl⟩

namespace Shows

variable {h h' : History}

theorem present? (hshows : h.Shows a) (hempty : h.isEmpty = false) : h.present? = some a := by
  rcases hshows with rfl | ⟨past, future, rfl⟩
  · cases hempty
  · exact present?_ofParts

/-- A moment is added after the one that is shown, if need be by starting the history with it. -/
theorem exists_add (hshows : h.Shows a) : ∃ past,
    (past = [] ∨ ∃ future, h = ofParts past a future) ∧
      ∀ b, (if h.isEmpty then h.add a else h).add b = ofParts (past ++ [a]) b [] := by
  rcases hshows with rfl | ⟨past, future, rfl⟩
  · exact ⟨[], .inl rfl, fun _ ↦ rfl⟩
  · refine ⟨past, .inr ⟨future, rfl⟩, fun b ↦ ?_⟩
    rw [isEmpty_ofParts]
    exact add_ofParts

theorem undo?_eq_some (hshows : h.Shows a) (hundo : h.undo? = some (b, h')) :
    ∃ past future, h = ofParts (past ++ [b]) a future ∧ h' = ofParts past b (a :: future) := by
  rcases hshows with rfl | ⟨past, future, rfl⟩
  · cases hundo
  · obtain ⟨early, rfl, rfl⟩ := undo?_ofParts_eq_some_iff.mp hundo
    exact ⟨early, future, rfl, rfl⟩

theorem redo?_eq_some (hshows : h.Shows a) (hredo : h.redo? = some (b, h')) :
    ∃ past future, h = ofParts past a (b :: future) ∧ h' = ofParts (past ++ [a]) b future := by
  rcases hshows with rfl | ⟨past, future, rfl⟩
  · cases hredo
  · obtain ⟨late, rfl, rfl⟩ := redo?_ofParts_eq_some_iff.mp hredo
    exact ⟨past, late, rfl, rfl⟩

end Shows

/-! ## Entries -/

theorem mem_entries_start : b ∈ (start a).entries ↔ b = a := by
  simp [start_eq_ofParts, ofParts]

theorem mem_entries_of_mem_add {h : History} (hb : b ∈ (h.add a).entries) :
    b ∈ h.entries ∨ b = a := by
  simp only [add, Array.mem_push] at hb
  refine hb.imp_left fun hpast ↦ ?_
  split at hpast
  · rw [← Array.mem_toList_iff] at hpast ⊢
    rw [Array.take, Array.toList_extract, List.extract_eq_take_drop] at hpast
    exact List.mem_of_mem_drop (List.mem_of_mem_take hpast)
  · exact hpast

/-! A way through the history ends at an entry, and loses none. -/

variable {h h' : History}

theorem goTo?_eq_some_iff {k : Nat} :
    h.goTo? k = some (b, h') ↔ h.entries[k]? = some b ∧ h' = { h with cursor := some k } := by
  simp [goTo?, @eq_comm _ h']

theorem exists_goTo?_of_undo? (hundo : h.undo? = some (b, h')) :
    ∃ k, h.cursor = some (k + 1) ∧ h.goTo? k = some (b, h') := by
  rw [undo?] at hundo
  split at hundo
  · rename_i k hcursor
    exact ⟨k, hcursor, hundo⟩
  · cases hundo

theorem exists_goTo?_of_redo? (hredo : h.redo? = some (b, h')) :
    ∃ k, h.cursor = some k ∧ h.goTo? (k + 1) = some (b, h') :=
  Option.bind_eq_some_iff.mp hredo

theorem entries_of_undo? (hundo : h.undo? = some (b, h')) : h'.entries = h.entries := by
  obtain ⟨_, -, hgo⟩ := exists_goTo?_of_undo? hundo
  rw [(goTo?_eq_some_iff.mp hgo).2]

theorem entries_of_redo? (hredo : h.redo? = some (b, h')) : h'.entries = h.entries := by
  obtain ⟨_, -, hgo⟩ := exists_goTo?_of_redo? hredo
  rw [(goTo?_eq_some_iff.mp hgo).2]

theorem mem_entries_of_undo? (hundo : h.undo? = some (b, h')) : b ∈ h.entries := by
  obtain ⟨_, -, hgo⟩ := exists_goTo?_of_undo? hundo
  exact Array.mem_of_getElem? (goTo?_eq_some_iff.mp hgo).1

theorem mem_entries_of_redo? (hredo : h.redo? = some (b, h')) : b ∈ h.entries := by
  obtain ⟨_, -, hgo⟩ := exists_goTo?_of_redo? hredo
  exact Array.mem_of_getElem? (goTo?_eq_some_iff.mp hgo).1

end MolePuzzle.History
