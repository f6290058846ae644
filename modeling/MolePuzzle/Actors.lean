import MolePuzzle.Grid.CellSet

/-!
# Actors

The mole and the boxes are what moves on a field.  Their positions at one moment are the `Actors`,
and the boxes among them are kept as a list: a box keeps its place in it when it is pushed, so boxes
can be followed from one moment to the next.  Where only the occupied cells matter, `boxSet` is the
set of them, and two moments are compared through these sets.
-/

set_option autoImplicit false

namespace MolePuzzle

/-- The way of one box from a cell to another. -/
structure Push where
  /-- The cell the box leaves. -/
  origin : Coord
  /-- The cell it comes to stand on. -/
  destination : Coord
  deriving DecidableEq, Repr, Inhabited

/-- Where the mole and the boxes are. -/
structure Actors where
  /-- The mole's cell, if there is a mole. -/
  mole : Option Coord := none
  /-- The cells of the boxes. -/
  boxes : List Coord := []
  deriving DecidableEq, Repr, Inhabited

namespace Actors

/-- Is there a box on the cell? -/
def hasBox (a : Actors) (c : Coord) : Bool := a.boxes.contains c

@[simp] theorem hasBox_iff {a : Actors} {c : Coord} : a.hasBox c = true ↔ c ∈ a.boxes := by
  simp [hasBox]

@[simp] theorem hasBox_eq_false_iff {a : Actors} {c : Coord} :
    a.hasBox c = false ↔ c ∉ a.boxes := by
  rw [← Bool.not_eq_true, hasBox_iff]

/-- The cells that hold a box. -/
def boxSet (a : Actors) : CellSet := .ofList a.boxes

@[simp] theorem mem_boxSet {a : Actors} {c : Coord} : c ∈ a.boxSet ↔ c ∈ a.boxes :=
  CellSet.mem_ofList

/-- Do boxes occupy the same cells at both moments? -/
def sameBoxes (a b : Actors) : Bool := decide (a.boxSet = b.boxSet)

theorem sameBoxes_iff {a b : Actors} : a.sameBoxes b = true ↔ ∀ c, c ∈ a.boxes ↔ c ∈ b.boxes := by
  rw [sameBoxes, decide_eq_true_iff]
  constructor
  · intro h c
    rw [← mem_boxSet, h, mem_boxSet]
  · intro h
    exact Std.ExtTreeSet.ext_mem fun c ↦ by rw [mem_boxSet, mem_boxSet, h]

theorem sameBoxes_comm (a b : Actors) : a.sameBoxes b = b.sameBoxes a := by
  rw [Bool.eq_iff_iff, sameBoxes_iff, sameBoxes_iff]
  exact forall_congr' fun _ ↦ Iff.comm

/-- The push that leads from the boxes of the first moment to those of the second: exactly one cell
has lost its box and exactly one has got one. -/
def boxChange? (a b : Actors) : Option Push :=
  match (a.boxSet \ b.boxSet).toList, (b.boxSet \ a.boxSet).toList with
  | [origin], [destination] => some ⟨origin, destination⟩
  | _, _ => none

end Actors

end MolePuzzle
