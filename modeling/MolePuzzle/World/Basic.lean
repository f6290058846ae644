import MolePuzzle.History
import MolePuzzle.Level.Layout

/-!
# Worlds

A world is a layout in play: besides the layout it holds the level's name, the set of floor cells
that moves are checked against, the history of the mole and the boxes, two counters, and whether the
level has been seen solved.

Whatever happens in a world is told as a list of events, in the order in which it came about.  Every
operation returns the new world together with its events.
-/

set_option autoImplicit false

namespace MolePuzzle

/-! ## Events -/

/-- The mole's way from one moment to another, with the box that moved, if exactly one did. -/
structure MoleMove where
  /-- Where the mole was. -/
  origin : Option Coord
  /-- Where it is now. -/
  destination : Option Coord
  /-- The box that changed its cell. -/
  push : Option Push
  deriving DecidableEq, Repr, Inhabited

/-- What can happen in a world. -/
inductive Event where
  /-- The field has got another size. -/
  | fieldResized (before after : Size)
  /-- A move was made, taken back or made again. -/
  | moleMoved (move : MoleMove)
  /-- The last uncovered target has got its box, at this count of steps. -/
  | solved (steps : Nat)
  /-- A level of this size has been loaded. -/
  | levelLoaded (size : Size)
  deriving DecidableEq, Repr, Inhabited

/-! ## Counters -/

/-- The largest count. -/
def maxCount : Nat := 4294967295

/-- One more.  Counting ends at the largest count. -/
def countUp (n : Nat) : Nat := min (n + 1) maxCount

/-- One less.  Counting down ends at zero. -/
def countDown (n : Nat) : Nat := n - 1

/-! ## The world -/

/-- A layout in play. -/
structure World extends Layout where
  /-- The name of the level. -/
  name : String := ""
  /-- The cells that are floor. -/
  floor : CellSet := ∅
  /-- The recorded moments of the mole and the boxes. -/
  history : History := {}
  /-- Steps made, less those taken back. -/
  steps : Nat := 0
  /-- The steps among them that moved a box. -/
  pushes : Nat := 0
  /-- Were all targets covered when this was last looked at? -/
  won : Bool := false
  deriving DecidableEq

instance : Inhabited World := ⟨{}⟩

namespace World

/-- Looks whether all targets are covered, and tells if this is news. -/
def judge (w : World) : World × List Event :=
  ({ w with won := w.covered }, if w.covered && !w.won then [.solved w.steps] else [])

/-- Can the present move be taken back? -/
def canUndo (w : World) : Bool := w.history.canUndo

/-- Can a move that was taken back be made again? -/
def canRedo (w : World) : Bool := w.history.canRedo

/-- Starts the history afresh from the present moment. -/
def restartHistory (w : World) : World := { w with history := .start w.actors }

/-! ## Loading and writing -/

/-- Puts a layout into play.  Only the name stays. -/
def install (w : World) (l : Layout) : World × List Event :=
  ({ toLayout := l
     name := w.name
     floor := l.field.cellsOf .floor
     history := .start l.actors
     won := l.covered },
   (if w.field.size = l.field.size then [] else [.fieldResized w.field.size l.field.size]) ++
     [.levelLoaded l.field.size])

/-- Loads a level from rows of characters. -/
def load (w : World) (rows : List (List Char)) : Except LevelError (World × List Event) :=
  (Layout.ofRows rows).map w.install

/-- Loads a level from the bytes of its text. -/
def loadBytes (w : World) (bytes : List UInt8) : Except LevelError (World × List Event) :=
  (Layout.ofBytes bytes).map w.install

/-- The world in which the level of the given rows is about to be played. -/
def ofRows (rows : List (List Char)) : Except LevelError World := (load {} rows).map Prod.fst

/-- The world in which the level of the given bytes is about to be played. -/
def ofBytes (bytes : List UInt8) : Except LevelError World := (loadBytes {} bytes).map Prod.fst

end World

end MolePuzzle
