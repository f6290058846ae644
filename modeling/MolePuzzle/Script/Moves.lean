import MolePuzzle.Script.Error
import MolePuzzle.Text.Blank
import MolePuzzle.World.Command

/-!
# Move scripts

A move script has one letter a command: `U`, `D`, `L` and `R` move the mole, `z` takes a move back
and `y` makes it again, in either case of the letter.  Commas and white space may stand anywhere,
but count when a character is referred to by its place.
-/

set_option autoImplicit false

namespace MolePuzzle.Script

/-- The command a letter stands for. -/
def commandOf? : Char → Option Command
  | 'U' | 'u' => some (.move .up)
  | 'D' | 'd' => some (.move .down)
  | 'L' | 'l' => some (.move .left)
  | 'R' | 'r' => some (.move .right)
  | 'Z' | 'z' => some .undo
  | 'Y' | 'y' => some .redo
  | _ => none

/-- May the character stand anywhere in a script? -/
def isFiller (c : Char) : Bool := c == ',' || Text.isBlank c

/-- Reads the part of a move script that starts at the given place. -/
def movesFrom (position : Nat) : List Char → Except ScriptError (List Command)
  | [] => .ok []
  | c :: rest =>
    if isFiller c then movesFrom (position + 1) rest
    else match commandOf? c with
      | none => .error (.unknownMove c position)
      | some command => (movesFrom (position + 1) rest).map (command :: ·)

/-- Reads a move script. -/
def moves (text : List Char) : Except ScriptError (List Command) := movesFrom 0 text

end MolePuzzle.Script
