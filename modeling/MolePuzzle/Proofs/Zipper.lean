import Mathlib.Data.List.Induction
import MolePuzzle.Proofs.Timeline

/-!
# The history as a zipper

A history keeps its moments in one array, with a cursor that is missing as long as there are none.
A zipper keeps them as they are seen from the present: what came before it and what comes after it,
the nearest moment first on either side.  Going back or forth takes the nearest moment of one side
and puts the present on the other, and a new moment leaves no future.

`History.run_zipper` says that the two cannot be told apart by what can be asked of a history, in
any order.  One call takes the history of a zipper to the history of the zipper after the call, and
gives the same answer (`Zipper.call_history`); the rest is read off the history of a zipper.
-/

set_option autoImplicit false

namespace MolePuzzle

/-! ## Calls -/

namespace History

/-- What can be asked of a history. -/
inductive Call where
  | add (a : Actors)
  | undo
  | redo
  | clear
  deriving DecidableEq, Repr

/-- The moment that a way through the history leads to, and what the history is then.  Where there
is no way, it is what it was. -/
def answer {σ : Type} (s : σ) (way : Option (Actors × σ)) : Option Actors × σ :=
  (way.map Prod.fst, (way.map Prod.snd).getD s)

/-- Does what it is asked for, and tells the moment that it has gone to. -/
def call (h : History) : Call → Option Actors × History
  | .add a => (none, h.add a)
  | .undo => answer h h.undo?
  | .redo => answer h h.redo?
  | .clear => (none, h.clear)

namespace Call

variable {σ : Type} {step : σ → Call → Option Actors × σ} {calls : List Call} {a : Actors}
  {c : Call}

/-- The answers to calls that are made one after another, and the state at the end. -/
def run (step : σ → Call → Option Actors × σ) (s : σ) : List Call → List (Option Actors) × σ
  | [] => ([], s)
  | c :: rest =>
    let (answer, next) := step s c
    let (answers, last) := run step next rest
    (answer :: answers, last)

theorem snd_run_concat (s : σ) (calls : List Call) (c : Call) :
    (run step s (calls ++ [c])).2 = (step (run step s calls).2 c).2 := by
  induction calls generalizing s with
  | nil => rfl
  | cons first rest ih => exact ih (step s first).2

/-- The moment has been entered by one of the calls, and nothing has been cleared since. -/
def Entered (calls : List Call) (a : Actors) : Prop :=
  ∃ early late, calls = early ++ add a :: late ∧ clear ∉ late

theorem entered_concat_add : Entered (calls ++ [add a]) a := ⟨calls, [], rfl, List.not_mem_nil⟩

theorem Entered.concat (h : Entered calls a) (hc : c ≠ clear) : Entered (calls ++ [c]) a := by
  obtain ⟨early, late, rfl, hlate⟩ := h
  refine ⟨early, late ++ [c], by simp, ?_⟩
  simpa [hlate] using hc.symm

end Call

end History

/-! ## Zippers -/

/-- The moments of a game as they are seen from the present one. -/
structure Zipper where
  /-- The moments before the present, the latest first. -/
  past : List Actors := []
  /-- The present moment, once there is one. -/
  present : Option Actors := none
  /-- The moments after the present, the earliest first. -/
  future : List Actors := []
  /-- Without a present there are no other moments. -/
  alone : present = none → past = [] ∧ future = [] := by decide
  deriving DecidableEq, Repr

namespace Zipper

open History (Call)

/-- Number of moments. -/
def size (z : Zipper) : Nat := z.past.length + z.present.toList.length + z.future.length

/-- The present becomes past, and there is no future. -/
def add (z : Zipper) (a : Actors) : Zipper where
  past := z.present.toList ++ z.past
  present := some a
  alone := nofun

/-- The latest moment of the past becomes the present. -/
def undo? (z : Zipper) : Option (Actors × Zipper) :=
  match z.past with
  | [] => none
  | a :: past => some (a, ⟨past, some a, z.present.toList ++ z.future, nofun⟩)

/-- The earliest moment of the future becomes the present. -/
def redo? (z : Zipper) : Option (Actors × Zipper) :=
  match z.future with
  | [] => none
  | a :: future => some (a, ⟨z.present.toList ++ z.past, some a, future, nofun⟩)

/-- Does what a history is asked for. -/
def call (z : Zipper) : Call → Option Actors × Zipper
  | .add a => (none, z.add a)
  | .undo => History.answer z z.undo?
  | .redo => History.answer z z.redo?
  | .clear => (none, {})

/-- The history with the moments of a zipper. -/
def history (z : Zipper) : History :=
  match z.present with
  | none => {}
  | some a => .ofParts z.past.reverse a z.future

/-- **One call** is answered alike, and leads to the history of the zipper that it leads to. -/
theorem call_history (z : Zipper) (c : Call) :
    z.history.call c = ((z.call c).1, (z.call c).2.history) := by
  obtain ⟨past, present, future, halone⟩ := z
  cases present with
  | none =>
    obtain ⟨rfl, rfl⟩ := halone rfl
    cases c <;> rfl
  | some a =>
    cases c with
    | add b => simp [history, call, add, History.call, History.add_ofParts]
    | undo =>
      cases past with
      | nil => rfl
      | cons b past =>
        simp [history, call, undo?, History.call, History.answer, History.undo?_ofParts_concat]
    | redo =>
      cases future with
      | nil => simp [history, call, redo?, History.call, History.answer, History.redo?_ofParts_nil]
      | cons b future =>
        simp [history, call, redo?, History.call, History.answer, History.redo?_ofParts_cons]
    | clear => rfl

/-- **All calls** are answered alike. -/
theorem run_history (z : Zipper) (calls : List Call) :
    Call.run History.call z.history calls =
      ((Call.run call z calls).1, (Call.run call z calls).2.history) := by
  induction calls generalizing z with
  | nil => rfl
  | cons c rest ih => simp only [Call.run, call_history, ih]

/-! ## What is seen of a history -/

theorem toList_entries_history (z : Zipper) :
    z.history.entries.toList = z.past.reverse ++ z.present.toList ++ z.future := by
  obtain ⟨past, present, future, halone⟩ := z
  cases present with
  | none =>
    obtain ⟨rfl, rfl⟩ := halone rfl
    rfl
  | some a => simp [history]

theorem cursor_history (z : Zipper) :
    z.history.cursor = z.present.map fun _ ↦ z.past.length := by
  obtain ⟨past, present, future, -⟩ := z
  cases present with
  | none => rfl
  | some a => simp [history, History.ofParts]

theorem size_history (z : Zipper) : z.history.size = z.size := by
  rw [History.size, ← Array.length_toList, toList_entries_history]
  simp [size, Nat.add_assoc]

theorem isEmpty_history (z : Zipper) : z.history.isEmpty = true ↔ z.present = none := by
  obtain ⟨past, present, future, -⟩ := z
  cases present with
  | none => exact iff_of_true rfl rfl
  | some a => simp [history]

theorem canUndo_history (z : Zipper) : z.history.canUndo = true ↔ z.past ≠ [] := by
  obtain ⟨past, present, future, halone⟩ := z
  cases present with
  | none => simp [history, History.canUndo, (halone rfl).1]
  | some a => simp [history, History.canUndo_ofParts]

theorem canRedo_history (z : Zipper) : z.history.canRedo = true ↔ z.future ≠ [] := by
  obtain ⟨past, present, future, halone⟩ := z
  cases present with
  | none => simp [history, History.canRedo, (halone rfl).2]
  | some a => simp [history, History.canRedo_ofParts]

end Zipper

/-! ## What has been entered -/

namespace History

variable {h : History} {a b : Actors} {c : Call}

/-- A way through the history leads to one with the same moments. -/
theorem entries_answer {way : Option (Actors × History)}
    (hway : ∀ b h', way = some (b, h') → h'.entries = h.entries) :
    (answer h way).2.entries = h.entries := by
  cases way with
  | none => rfl
  | some r => exact hway r.1 r.2 rfl

/-- A moment that is there after a call was there before, or the call has entered it. -/
theorem mem_entries_call (hmem : b ∈ (h.call c).2.entries) :
    b ∈ h.entries ∧ c ≠ .clear ∨ c = .add b := by
  cases c with
  | add a => exact (mem_entries_of_mem_add hmem).imp (⟨·, nofun⟩) fun hb ↦ congrArg Call.add hb.symm
  | undo => exact .inl ⟨entries_answer (fun _ _ ↦ entries_of_undo?) ▸ hmem, nofun⟩
  | redo => exact .inl ⟨entries_answer (fun _ _ ↦ entries_of_redo?) ▸ hmem, nofun⟩
  | clear => exact absurd hmem (Array.not_mem_empty b)

/-- **Nothing is remembered that has not been entered** since the history was last cleared. -/
theorem entered_of_mem_entries {calls : List Call} (hmem : b ∈ (Call.run call {} calls).2.entries) :
    Call.Entered calls b := by
  induction calls using List.reverseRecOn with
  | nil => exact absurd hmem (Array.not_mem_empty b)
  | append_singleton early c ih =>
    rw [Call.snd_run_concat] at hmem
    rcases mem_entries_call hmem with ⟨hbefore, hc⟩ | rfl
    · exact (ih hbefore).concat hc
    · exact Call.entered_concat_add

/-- **A history is a zipper.**  Let calls be made of an empty history, and of an empty zipper.

* The answers are the same, and the entries are the past, the present and the future in the order of
  time, with the cursor at the present.
* A move can be taken back exactly if there is a past, and made again exactly if there is a future;
  the history is empty exactly if there is no present, and it has as many entries as the zipper.
* The cursor is missing if there are no entries, and is the number of an entry otherwise.
* A way back or forth loses no entry, and leads to a moment that has been entered since the history
  was last cleared. -/
theorem run_zipper (calls : List Call) :
    let h := (Call.run call {} calls).2
    let z := (Call.run Zipper.call {} calls).2
    (Call.run call {} calls).1 = (Call.run Zipper.call {} calls).1 ∧
      h.entries.toList = z.past.reverse ++ z.present.toList ++ z.future ∧
      h.cursor = z.present.map (fun _ ↦ z.past.length) ∧
      (h.canUndo = true ↔ z.past ≠ []) ∧ (h.canRedo = true ↔ z.future ≠ []) ∧
      (h.isEmpty = true ↔ z.present = none) ∧ h.size = z.size ∧
      (h.isEmpty = true → h.cursor = none) ∧
      (h.isEmpty = false → ∃ k, h.cursor = some k ∧ k < h.size) ∧
      ∀ a h', h.undo? = some (a, h') ∨ h.redo? = some (a, h') →
        h'.entries = h.entries ∧ Call.Entered calls a := by
  intro h z
  have hrun : Call.run call {} calls = ((Call.run Zipper.call {} calls).1, z.history) :=
    Zipper.run_history {} calls
  have hh : h = z.history := congrArg Prod.snd hrun
  refine ⟨congrArg Prod.fst hrun, ?_⟩
  have hentered : ∀ a ∈ h.entries, Call.Entered calls a := fun a ha ↦ entered_of_mem_entries ha
  clear_value h z
  subst hh
  refine ⟨z.toList_entries_history, z.cursor_history, z.canUndo_history, z.canRedo_history,
    z.isEmpty_history, z.size_history, fun hempty ↦ ?_, fun hempty ↦ ?_, ?_⟩
  · rw [z.cursor_history, z.isEmpty_history.mp hempty, Option.map_none]
  · rw [z.cursor_history, z.size_history, Zipper.size]
    cases hpresent : z.present with
    | none => exact absurd (z.isEmpty_history.mpr hpresent) (by simp [hempty])
    | some a => exact ⟨z.past.length, rfl, by simp; omega⟩
  · rintro a h' (hundo | hredo)
    · exact ⟨entries_of_undo? hundo, hentered a (mem_entries_of_undo? hundo)⟩
    · exact ⟨entries_of_redo? hredo, hentered a (mem_entries_of_redo? hredo)⟩

/-- A branch is left for another after two of its moments have been taken back, and what had been
entered before the history was cleared does not come back. -/
theorem run_zipper_branch :
    let column (k : UInt32) : Actors := ⟨some ⟨k, 0⟩, []⟩
    let calls : List Call := [.add (column 9), .clear, .add (column 0), .add (column 1),
      .add (column 2), .undo, .undo, .undo, .add (column 7), .redo, .undo]
    let later : History := ⟨#[column 0, column 7], some 1⟩
    (Call.run call {} calls).1 = [none, none, none, none, none, some (column 1), some (column 0),
        none, none, none, some (column 0)] ∧
      (Call.run call {} calls).2.entries.toList = [column 0, column 7] ∧
      (Call.run call {} calls).2.redo? = some (column 7, later) ∧
      later.entries = (Call.run call {} calls).2.entries ∧ Call.Entered calls (column 7) := by
  intro column calls later
  obtain ⟨hanswers, hentries, -, -, -, -, -, -, -, hway⟩ := run_zipper calls
  have hlater : (Call.run call {} calls).2.redo? = some (column 7, later) := by decide
  exact ⟨hanswers.trans (by decide), hentries.trans (by decide), hlater, hway _ _ (.inr hlater)⟩

end History

end MolePuzzle
