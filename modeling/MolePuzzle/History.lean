import MolePuzzle.Actors

/-!
# History

The moments of a game in the order in which they came about, with a cursor at the present one.
Going back and forth moves the cursor.  A new moment is entered after the cursor, and whatever was
ahead of it is forgotten.
-/

set_option autoImplicit false

namespace MolePuzzle

/-- The recorded moments of a game. -/
structure History where
  /-- The moments, oldest first. -/
  entries : Array Actors := #[]
  /-- The place of the present moment. -/
  cursor : Option Nat := none
  deriving DecidableEq, Repr, Inhabited

namespace History

/-- Number of recorded moments. -/
def size (h : History) : Nat := h.entries.size

/-- Has nothing been recorded? -/
def isEmpty (h : History) : Bool := h.entries.isEmpty

/-- Enters a moment after the present one, as the new present. -/
def add (h : History) (a : Actors) : History :=
  let past := match h.cursor with
    | some k => h.entries.take (k + 1)
    | none => h.entries
  ⟨past.push a, some past.size⟩

/-- Forgets every moment. -/
def clear (_ : History) : History := {}

/-- The history of a game that starts with the given moment. -/
def start (a : Actors) : History := add {} a

theorem add_clear (h : History) (a : Actors) : h.clear.add a = start a := rfl

/-- Is there a moment before the present one? -/
def canUndo (h : History) : Bool := h.cursor.any fun k ↦ decide (0 < k)

/-- Is there a moment after the present one? -/
def canRedo (h : History) : Bool := h.cursor.any fun k ↦ decide (k + 1 < h.entries.size)

/-- Makes the recorded moment `k` the present one. -/
def goTo? (h : History) (k : Nat) : Option (Actors × History) :=
  h.entries[k]?.map fun a ↦ (a, { h with cursor := some k })

/-- Steps back to the moment before the present one. -/
def undo? (h : History) : Option (Actors × History) :=
  match h.cursor with
  | some (k + 1) => h.goTo? k
  | _ => none

/-- Steps forward to the moment after the present one. -/
def redo? (h : History) : Option (Actors × History) := do
  let k ← h.cursor
  h.goTo? (k + 1)

end History

end MolePuzzle
