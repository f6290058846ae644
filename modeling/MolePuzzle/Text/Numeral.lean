/-!
# Numerals

A numeral is one or more of the digits 0 to 9, with a plus sign before them or without.  Zeros may
stand in front.  There is no other sign, and no blank.
-/

set_option autoImplicit false

namespace MolePuzzle.Text

/-- The value of a digit. -/
def digit? (c : Char) : Option Nat :=
  if '0' ≤ c ∧ c ≤ '9' then some (c.toNat - '0'.toNat) else none

/-- The value of the digits after those worth `acc`, if there are digits only. -/
def digitsFrom? (acc : Nat) : List Char → Option Nat
  | [] => some acc
  | c :: rest => do digitsFrom? (10 * acc + (← digit? c)) rest

/-- The value of a row of digits. -/
def digits? : List Char → Option Nat
  | [] => none
  | text => digitsFrom? 0 text

/-- The value of a numeral. -/
def numeral? : List Char → Option Nat
  | '+' :: text => digits? text
  | text => digits? text

/-- The value of a numeral that is a 32-bit word. -/
def word? (text : List Char) : Option UInt32 := do
  let n ← numeral? text
  if n < UInt32.size then some (UInt32.ofNat n) else none

end MolePuzzle.Text
