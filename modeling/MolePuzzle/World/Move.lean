import MolePuzzle.World.Basic

/-!
# Moving

The mole goes one cell at a time, over floor only.  A box in its way is pushed one cell further, if
that cell is floor and holds no box.  `World.plan?` finds out what a move would do and
`World.commit` does it; a move that is not allowed has no plan, and changes nothing.

Taking back and making again restore moments of the history.  They count like the moves they undo or
repeat, and are reported like moves.
-/

set_option autoImplicit false

namespace MolePuzzle

/-- What a move will do. -/
structure Plan where
  /-- Where the mole is. -/
  origin : Coord
  /-- Where it goes. -/
  destination : Coord
  /-- The box it pushes. -/
  push : Option Push
  deriving DecidableEq, Repr, Inhabited

namespace World

/-! ## Moves -/

/-- What a move in the given direction would do, if it is allowed. -/
def plan? (w : World) (d : Direction) : Option Plan := do
  let origin ← w.actors.mole
  let next ← origin.step? d
  if !w.floor.contains next then none
  else if !w.actors.hasBox next then some ⟨origin, next, none⟩
  else do
    let beyond ← next.step? d
    if w.floor.contains beyond && !w.actors.hasBox beyond then
      some ⟨origin, next, some ⟨next, beyond⟩⟩
    else none

/-- Is a move in the given direction allowed? -/
def canMove (w : World) (d : Direction) : Bool := (w.plan? d).isSome

/-- The actors after a planned move.  The pushed box keeps its place in the list. -/
def actorsAfter (w : World) (p : Plan) : Actors where
  mole := some p.destination
  boxes := match p.push with
    | none => w.actors.boxes
    | some push => w.actors.boxes.replace push.origin push.destination

/-- Makes a planned move.  A history without entries first gets the moment before the move. -/
def commit (w : World) (p : Plan) : World × List Event :=
  let history := if w.history.isEmpty then w.history.add w.actors else w.history
  let actors := w.actorsAfter p
  let moved := { w with
    actors := actors
    history := history.add actors
    steps := countUp w.steps
    pushes := if p.push.isSome then countUp w.pushes else w.pushes }
  let (judged, news) := moved.judge
  (judged, .moleMoved ⟨some p.origin, some p.destination, p.push⟩ :: news)

/-- Moves the mole, if the move is allowed. -/
def move? (w : World) (d : Direction) : Option (World × List Event) := (w.plan? d).map w.commit

/-! ## Taking back and making again -/

/-- Goes to another moment of the history, counting the step in the given way. -/
def travel (w : World) (count : Nat → Nat) (actors : Actors) (history : History) :
    World × List Event :=
  let moved := { w with
    actors := actors
    history := history
    steps := count w.steps
    pushes := if w.actors.sameBoxes actors then w.pushes else count w.pushes }
  let (judged, news) := moved.judge
  (judged, .moleMoved ⟨w.actors.mole, actors.mole, w.actors.boxChange? actors⟩ :: news)

/-- Takes the last move back, if there is one. -/
def undo? (w : World) : Option (World × List Event) :=
  w.history.undo?.map fun (actors, history) ↦ w.travel countDown actors history

/-- Makes the move again that was last taken back, if there is one. -/
def redo? (w : World) : Option (World × List Event) :=
  w.history.redo?.map fun (actors, history) ↦ w.travel countUp actors history

end World

end MolePuzzle
