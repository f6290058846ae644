import Std.Data.ExtTreeSet

/-!
# Cells of the grid

A cell is addressed by a column and a row, both 32-bit words, counted from the top left corner.
The four directions move by one column or one row, and `Coord.step?` says where that leads: nowhere,
when the result would leave the range of the words.  `Coord.step?_eq_some_iff` restates it as an
equation between integers, which is the form every argument about movement uses.

Cells are ordered row by row, the order in which a page is read.
-/

set_option autoImplicit false

namespace MolePuzzle

/-! ## Directions -/

/-- One of the four ways the mole can go. -/
inductive Direction where
  | up
  | down
  | left
  | right
  deriving DecidableEq, Repr, Inhabited

namespace Direction

/-- The four directions, vertical ones first. -/
def all : List Direction := [.up, .down, .left, .right]

theorem mem_all (d : Direction) : d ∈ all := by cases d <;> decide

/-- The change of column and of row.  Rows grow downwards. -/
def offset : Direction → Int × Int
  | up => (0, -1)
  | down => (0, 1)
  | left => (-1, 0)
  | right => (1, 0)

end Direction

/-! ## Words with an offset -/

/-- The word `d` places after `n`, unless the result leaves the range of the words. -/
def shiftWord? (n : UInt32) (d : Int) : Option UInt32 :=
  let k := (n.toNat : Int) + d
  if 0 ≤ k ∧ k < (UInt32.size : Int) then some (UInt32.ofNat k.toNat) else none

theorem shiftWord?_eq_some_iff {n m : UInt32} {d : Int} :
    shiftWord? n d = some m ↔ (m.toNat : Int) = n.toNat + d := by
  have hm := m.toNat_lt
  simp only [shiftWord?, Option.ite_none_right_eq_some, Option.some.injEq, UInt32.size]
  constructor
  · rintro ⟨h, rfl⟩
    rw [UInt32.toNat_ofNat_of_lt' (by simp only [UInt32.size]; omega)]
    omega
  · intro h
    refine ⟨by omega, ?_⟩
    rw [← h]
    simp

/-! ## Cells -/

/-- A cell of the grid. -/
structure Coord where
  /-- Cells to the left of it in its row. -/
  column : UInt32
  /-- Rows above it. -/
  row : UInt32
  deriving DecidableEq, Repr, Inhabited

namespace Coord

/-- Cells compare by row, and within a row by column. -/
instance : Ord Coord := ⟨compareLex (compareOn row) (compareOn column)⟩

instance : Std.TransOrd Coord :=
  inferInstanceAs (Std.TransCmp (compareLex (compareOn row) (compareOn column)))

instance : Std.LawfulEqOrd Coord where
  eq_of_compare := by
    intro a b h
    have hthen : (compareOn row a b).then (compareOn column a b) = .eq := h
    obtain ⟨hrow, hcolumn⟩ := Ordering.then_eq_eq.mp hthen
    have hrow : a.row = b.row := Std.LawfulEqOrd.eq_of_compare hrow
    have hcolumn : a.column = b.column := Std.LawfulEqOrd.eq_of_compare hcolumn
    cases a
    cases b
    simp_all

/-- The neighbour in the given direction, if the words can express it. -/
def step? (c : Coord) (d : Direction) : Option Coord := do
  let column ← shiftWord? c.column d.offset.1
  let row ← shiftWord? c.row d.offset.2
  pure ⟨column, row⟩

theorem step?_eq_some_iff {c e : Coord} {d : Direction} :
    c.step? d = some e ↔
      (e.column.toNat : Int) = c.column.toNat + d.offset.1 ∧
        (e.row.toNat : Int) = c.row.toNat + d.offset.2 := by
  simp only [step?, Option.bind_eq_bind, Option.bind_eq_some_iff, Option.pure_def,
    Option.some.injEq, shiftWord?_eq_some_iff]
  constructor
  · rintro ⟨_, hc, _, hr, rfl⟩
    exact ⟨hc, hr⟩
  · rintro ⟨hc, hr⟩
    exact ⟨_, hc, _, hr, rfl⟩

end Coord

end MolePuzzle
