import MolePuzzle.Grid.Size
import MolePuzzle.Script.Error
import MolePuzzle.Text.Blank
import MolePuzzle.Text.Numeral
import MolePuzzle.Text.Split

/-!
# Sizes in writing

A size is written as its width and its height with an `x` between them, as in `25x15`.  When one is
read, the `x` may be a capital, and white space may surround the two numerals.
-/

set_option autoImplicit false

namespace MolePuzzle

/-- A size in writing. -/
def Size.text (s : Size) : List Char :=
  Nat.toDigits 10 s.width.toNat ++ 'x' :: Nat.toDigits 10 s.height.toNat

namespace Script

/-- Does the character stand between width and height? -/
def isCross (c : Char) : Bool := c == 'x' || c == 'X'

/-- The size that a text is the writing of. -/
def size? (text : List Char) : Option Size := do
  let (width, height) ← Text.cut? isCross text
  let width ← Text.word? (Text.trim width)
  let height ← Text.word? (Text.trim height)
  pure ⟨width, height⟩

/-- Reads a size. -/
def size (text : List Char) : Except ScriptError Size :=
  match size? text with
  | some s => .ok s
  | none => .error (.invalidSize text)

end Script

end MolePuzzle
