/-!
# Blank characters

The characters of white space: those with the Unicode property White_Space.
-/

set_option autoImplicit false

namespace MolePuzzle.Text

/-- Is the character white space?  The property holds for the controls from tab to carriage return,
the next-line control, the spaces of all widths, and the separators of lines and paragraphs. -/
def isBlank (c : Char) : Bool :=
  let n := c.toNat
  (0x09 ≤ n && n ≤ 0x0d) || n == 0x20 || n == 0x85 || n == 0xa0 || n == 0x1680 ||
    (0x2000 ≤ n && n ≤ 0x200a) || n == 0x2028 || n == 0x2029 || n == 0x202f || n == 0x205f ||
    n == 0x3000

/-- A text without the white space at either end. -/
def trim (text : List Char) : List Char :=
  ((text.dropWhile isBlank).reverse.dropWhile isBlank).reverse

end MolePuzzle.Text
