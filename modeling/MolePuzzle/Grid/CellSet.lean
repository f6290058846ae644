import MolePuzzle.Grid.Coord

/-!
# Sets of cells

Finite sets of cells, equal exactly when they have the same members.  They are the extensional tree
sets of the standard library over the reading order of cells; what is added here are the two
operations that also report whether the set changed.
-/

set_option autoImplicit false

namespace MolePuzzle

/-- A tree set lists none of its members twice. -/
theorem nodup_toList {α : Type} [Ord α] [Std.TransOrd α] [Std.LawfulEqOrd α]
    (s : Std.ExtTreeSet α) : s.toList.Nodup := by
  refine Std.ExtTreeSet.distinct_toList.imp ?_
  intro a b hab heq
  exact hab (Std.compare_eq_iff_eq.mpr heq)

/-- A finite set of cells. -/
abbrev CellSet := Std.ExtTreeSet Coord

namespace CellSet

/-- The set of the listed cells. -/
def ofList (cells : List Coord) : CellSet := Std.ExtTreeSet.ofList cells

@[simp] theorem mem_ofList {cells : List Coord} {c : Coord} : c ∈ ofList cells ↔ c ∈ cells := by
  simp [ofList, Std.ExtTreeSet.mem_ofList]

/-- Puts a cell in, and tells whether it was absent. -/
def add (s : CellSet) (c : Coord) : Bool × CellSet := (!s.contains c, s.insert c)

theorem mem_add {s : CellSet} {c e : Coord} : e ∈ (add s c).2 ↔ e = c ∨ e ∈ s := by
  rw [add, Std.ExtTreeSet.mem_insert, Std.compare_eq_iff_eq, eq_comm]

/-- Takes a cell out, and tells whether it was present. -/
def remove (s : CellSet) (c : Coord) : Bool × CellSet := (s.contains c, s.erase c)

theorem mem_remove {s : CellSet} {c e : Coord} : e ∈ (remove s c).2 ↔ e ≠ c ∧ e ∈ s := by
  rw [remove, Std.ExtTreeSet.mem_erase, Ne, Std.compare_eq_iff_eq, ne_comm]

end CellSet

end MolePuzzle
