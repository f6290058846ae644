import MolePuzzle.World.Basic

/-!
# Validation

A level is fit for play when there is a mole, and a box for every target.  This is a matter of
advice: a level that fails the check can still be held, edited and written.
-/

set_option autoImplicit false

namespace MolePuzzle

/-- What can keep a level from being played to its end. -/
inductive Issue where
  /-- There is no mole. -/
  | missingMole
  /-- There are fewer boxes than targets. -/
  | targetsExceedBoxes (targets boxes : Nat)
  deriving DecidableEq, Repr, Inhabited

namespace Issue

/-- The text shown for the issue. -/
def message : Issue → String
  | missingMole => "there is no mole on the field"
  | targetsExceedBoxes targets boxes =>
    "there are more target points (" ++ toString targets ++ ") than boxes (" ++
      toString boxes ++ ")"

end Issue

/-- Checks that a level can be played, and gives the first issue if it cannot. -/
def World.validate (w : World) : Except Issue Unit :=
  if w.actors.mole = none then .error .missingMole
  else if w.actors.boxes.length < w.targets.length then
    .error (.targetsExceedBoxes w.targets.length w.actors.boxes.length)
  else .ok ()

end MolePuzzle
