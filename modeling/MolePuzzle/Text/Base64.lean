/-!
# Base64 without padding

Bytes as text over the 64 symbols A to Z, a to z, 0 to 9, plus and slash: every three bytes make
four symbols, and one or two bytes at the end make two or three.  No equals signs are appended.

Reading takes only what writing makes.  A text can fail to be such in several places at once, and
which fault is told depends on the order in which they are looked for: first whether the number of
symbols is possible, then symbol by symbol.  Among the last eight places equals signs are taken for
misplaced padding, before that for symbols that do not exist.  Last, the bits for which there is no
byte have to be zero.
-/

set_option autoImplicit false

namespace MolePuzzle.Text.Base64

/-! ## Symbols -/

/-- The symbol for a value below 64. -/
def symbol (value : Nat) : Char :=
  if value < 26 then Char.ofNat ('A'.toNat + value)
  else if value < 52 then Char.ofNat ('a'.toNat + (value - 26))
  else if value < 62 then Char.ofNat ('0'.toNat + (value - 52))
  else if value = 62 then '+'
  else '/'

/-- The value of a symbol, given as its byte. -/
def value? (byte : UInt8) : Option Nat :=
  let n := byte.toNat
  if 'A'.toNat ≤ n ∧ n ≤ 'Z'.toNat then some (n - 'A'.toNat)
  else if 'a'.toNat ≤ n ∧ n ≤ 'z'.toNat then some (n - 'a'.toNat + 26)
  else if '0'.toNat ≤ n ∧ n ≤ '9'.toNat then some (n - '0'.toNat + 52)
  else if n = '+'.toNat then some 62
  else if n = '/'.toNat then some 63
  else none

/-! ## Writing -/

/-- The values of six bits each that make up the bytes.  The last one is filled up with zeros. -/
def values : List UInt8 → List Nat
  | [] => []
  | [a] => [a.toNat / 4, a.toNat % 4 * 16]
  | [a, b] => [a.toNat / 4, a.toNat % 4 * 16 + b.toNat / 16, b.toNat % 16 * 4]
  | a :: b :: c :: rest =>
    [a.toNat / 4, a.toNat % 4 * 16 + b.toNat / 16, b.toNat % 16 * 4 + c.toNat / 64,
      c.toNat % 64] ++ values rest

/-- Writes bytes. -/
def encode (bytes : List UInt8) : List Char := (values bytes).map symbol

/-! ## Reading -/

/-- Why a text is not the writing of any bytes. -/
inductive Fault where
  /-- This byte, at this offset, is no symbol where it stands. -/
  | invalidByte (byte : UInt8) (offset : Nat)
  /-- One symbol is left over, which is too little for a byte. -/
  | leftover
  /-- The last symbol, at this offset, has bits beyond the last byte. -/
  | invalidLastSymbol (byte : UInt8) (offset : Nat)
  /-- There is padding. -/
  | padded
  deriving DecidableEq, Repr, Inhabited

/-- The text shown for the fault. -/
def Fault.message : Fault → String
  | invalidByte byte offset =>
    "Invalid byte " ++ toString byte.toNat ++ ", offset " ++ toString offset ++ "."
  | leftover => "Encoded text cannot have a 6-bit remainder."
  | invalidLastSymbol byte offset =>
    "Invalid last symbol " ++ toString byte.toNat ++ ", offset " ++ toString offset ++ "."
  | padded => "Invalid padding"

/-- The equals sign. -/
def pad : UInt8 := 61

/-- The values of symbols, of which the first has the given offset. -/
def readSymbols (offset : Nat) : List UInt8 → Except Fault (List Nat)
  | [] => .ok []
  | byte :: rest =>
    match value? byte with
    | none => .error (.invalidByte byte offset)
    | some v => (readSymbols (offset + 1) rest).map (v :: ·)

/-- The values of the last symbols, of which the first has the given offset.  If there has been an
equals sign before it, `padAt` is the offset of the first one. -/
def readLastSymbols (padAt : Option Nat) (offset : Nat) : List UInt8 → Except Fault (List Nat)
  | [] => if padAt.isSome then .error .padded else .ok []
  | byte :: rest =>
    let firstPad := padAt.getD offset
    if byte = pad then
      if offset % 4 < 2 then .error (.invalidByte pad firstPad)
      else readLastSymbols (some firstPad) (offset + 1) rest
    else if padAt.isSome then .error (.invalidByte pad firstPad)
    else match value? byte with
      | none => .error (.invalidByte byte offset)
      | some v => (readLastSymbols padAt (offset + 1) rest).map (v :: ·)

/-- The bytes made up of values of six bits each.  Bits that do not fill a byte are left out. -/
def pack : List Nat → List UInt8
  | a :: b :: c :: d :: rest =>
    UInt8.ofNat (a * 4 + b / 16) :: UInt8.ofNat (b % 16 * 16 + c / 4) ::
      UInt8.ofNat (c % 4 * 64 + d) :: pack rest
  | [a, b, c] => [UInt8.ofNat (a * 4 + b / 16), UInt8.ofNat (b % 16 * 16 + c / 4)]
  | [a, b] => [UInt8.ofNat (a * 4 + b / 16)]
  | _ => []

/-- The bits of the last value that do not fill a byte. -/
def spareBits (values : List Nat) : Nat :=
  match values.length % 4 with
  | 2 => values.getLast?.getD 0 % 16
  | 3 => values.getLast?.getD 0 % 4
  | _ => 0

/-- The offset of the last eight places, or as many as the blocks of eight leave. -/
def lastBlock (count : Nat) : Nat := (count - 1) / 8 * 8

/-- Reads a text, given as its bytes. -/
def decode (text : List UInt8) : Except Fault (List UInt8) := do
  let count := text.length
  let last := text.getLast?.getD 0
  if count % 4 = 1 then
    if last ≠ pad ∧ value? last = none then throw (.invalidByte last (count - 1))
    else throw .leftover
  let front ← readSymbols 0 (text.take (lastBlock count))
  let back ← readLastSymbols none (lastBlock count) (text.drop (lastBlock count))
  let values := front ++ back
  if spareBits values ≠ 0 then throw (.invalidLastSymbol last (count - 1))
  return pack values

end MolePuzzle.Text.Base64
