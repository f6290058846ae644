/-!
# Settings documents

The notation in which settings are written: a subset of TOML.  A document is a sequence of lines,
each of them blank, a comment, or an entry that gives a key a string.  Keys are bare or quoted.
Strings are quoted in one of four ways: between double quotes with escapes, between single quotes as
they are, and either of these over several lines between three quotes.

Everything else that the full notation knows, such as tables and numbers, is refused.
-/

set_option autoImplicit false

namespace MolePuzzle.Settings.Document

/-- A reader takes what it reads off the front of a text, and leaves the rest. -/
abbrev Reader (α : Type) := List Char → Option (α × List Char)

/-! ## Characters -/

/-- The space and the tab. -/
def isSpace (c : Char) : Bool := c == ' ' || c == '\t'

/-- The characters that may stand in comments and strings: all but controls, of which the tab is let
through. -/
def isPlain (c : Char) : Bool := c == '\t' || (0x20 ≤ c.toNat && c.toNat != 0x7f)

/-- The characters of bare keys. -/
def isBare (c : Char) : Bool := c.isAlphanum || c == '_' || c == '-'

/-- The value of a hexadecimal digit. -/
def hexDigit? (c : Char) : Option Nat :=
  if '0' ≤ c ∧ c ≤ '9' then some (c.toNat - '0'.toNat)
  else if 'a' ≤ c ∧ c ≤ 'f' then some (c.toNat - 'a'.toNat + 10)
  else if 'A' ≤ c ∧ c ≤ 'F' then some (c.toNat - 'A'.toNat + 10)
  else none

/-- The character whose number is written with the first `count` digits. -/
def scalar? (count : Nat) (text : List Char) : Option Char := do
  let digits ← (text.take count).mapM hexDigit?
  let n := digits.foldl (fun n d ↦ 16 * n + d) 0
  if digits.length = count ∧ n.isValidChar then some (Char.ofNat n) else none

/-- The length of the newline at the front of a text. -/
def newline? : List Char → Option Nat
  | '\n' :: _ => some 1
  | '\r' :: '\n' :: _ => some 2
  | _ => none

/-! ## Strings -/

/-- The character that an escape stands for, and the length of the escape after its backslash. -/
def escape? : List Char → Option (Char × Nat)
  | 'b' :: _ => some ('\x08', 1)
  | 't' :: _ => some ('\t', 1)
  | 'n' :: _ => some ('\n', 1)
  | 'f' :: _ => some ('\x0c', 1)
  | 'r' :: _ => some ('\r', 1)
  | '"' :: _ => some ('"', 1)
  | '\\' :: _ => some ('\\', 1)
  | 'u' :: rest => (scalar? 4 rest).map fun c ↦ (c, 5)
  | 'U' :: rest => (scalar? 8 rest).map fun c ↦ (c, 9)
  | _ => none

/-- Puts a character before a string that has been read. -/
def push (c : Char) (read : List Char × List Char) : List Char × List Char :=
  (c :: read.1, read.2)

/-- Reads a string up to its double quote.  The first `skip` characters belong to an escape that has
been read. -/
def basic (skip : Nat) : Reader (List Char)
  | [] => none
  | c :: rest =>
    match skip with
    | skip + 1 => basic skip rest
    | 0 =>
      if c = '"' then some ([], rest)
      else if c = '\\' then
        match escape? rest with
        | none => none
        | some (e, length) => (basic length rest).map (push e)
      else if isPlain c then (basic 0 rest).map (push c)
      else none

/-- Reads a string up to its single quote. -/
def literal : Reader (List Char)
  | [] => none
  | c :: rest =>
    if c = '\'' then some ([], rest)
    else if isPlain c then (literal rest).map (push c)
    else none

/-- Three quotes or more at the front of a text end a string of several lines.  Up to two of them
still belong to the string; gives how many do, and the rest of the text. -/
def closing? (quote : Char) (text : List Char) : Option (Nat × List Char) :=
  let count := min (text.takeWhile (· == quote)).length 5
  if count < 3 then none else some (count - 3, text.drop count)

/-- The number of characters at the front of a text that only separate words or lines. -/
def gap : List Char → Nat
  | ' ' :: rest => gap rest + 1
  | '\t' :: rest => gap rest + 1
  | '\n' :: rest => gap rest + 1
  | '\r' :: '\n' :: rest => gap rest + 2
  | _ => 0

/-- A backslash at the end of a line takes away the newline and all the space after it: gives the
number of characters that go. -/
def fold? (text : List Char) : Option Nat :=
  let spaces := (text.takeWhile isSpace).length
  (newline? (text.drop spaces)).map fun _ ↦ gap text

/-- Reads a string of several lines up to its three double quotes.  The first `skip` characters
belong to what has been read. -/
def multilineBasic (skip : Nat) : Reader (List Char)
  | [] => none
  | c :: rest =>
    match skip with
    | skip + 1 => multilineBasic skip rest
    | 0 =>
      match closing? '"' (c :: rest) with
      | some (count, after) => some (List.replicate count '"', after)
      | none =>
        if c = '\\' then
          match escape? rest, fold? rest with
          | some (e, length), _ => (multilineBasic length rest).map (push e)
          | none, some length => multilineBasic length rest
          | none, none => none
        else match newline? (c :: rest) with
          | some length => (multilineBasic (length - 1) rest).map (push '\n')
          | none => if isPlain c then (multilineBasic 0 rest).map (push c) else none

/-- Reads a string of several lines up to its three single quotes.  The first `skip` characters
belong to what has been read. -/
def multilineLiteral (skip : Nat) : Reader (List Char)
  | [] => none
  | c :: rest =>
    match skip with
    | skip + 1 => multilineLiteral skip rest
    | 0 =>
      match closing? '\'' (c :: rest) with
      | some (count, after) => some (List.replicate count '\'', after)
      | none =>
        match newline? (c :: rest) with
        | some length => (multilineLiteral (length - 1) rest).map (push '\n')
        | none => if isPlain c then (multilineLiteral 0 rest).map (push c) else none

/-- The length of a newline directly after the opening quotes, which is not part of the string. -/
def firstNewline (text : List Char) : Nat := (newline? text).getD 0

/-- Reads a string quoted in any way. -/
def value : Reader (List Char)
  | '"' :: '"' :: '"' :: rest => multilineBasic (firstNewline rest) rest
  | '"' :: rest => basic 0 rest
  | '\'' :: '\'' :: '\'' :: rest => multilineLiteral (firstNewline rest) rest
  | '\'' :: rest => literal rest
  | _ => none

/-! ## Lines -/

/-- Reads a key. -/
def key : Reader (List Char)
  | '"' :: rest => basic 0 rest
  | '\'' :: rest => literal rest
  | text =>
    match text.takeWhile isBare with
    | [] => none
    | bare => some (bare, text.dropWhile isBare)

/-- What follows the end of a line, if nothing but space and a comment comes before it. -/
def lineEnd? (text : List Char) : Option (List Char) :=
  let rest := match text.dropWhile isSpace with
    | '#' :: comment => comment.dropWhile isPlain
    | rest => rest
  match rest with
  | [] => some []
  | '\n' :: rest => some rest
  | '\r' :: '\n' :: rest => some rest
  | _ => none

/-- Reads a key with its string. -/
def entry : Reader (List Char × List Char) := fun text ↦ do
  let (k, rest) ← key (text.dropWhile isSpace)
  match rest.dropWhile isSpace with
  | '=' :: rest =>
    let (v, rest) ← value (rest.dropWhile isSpace)
    let rest ← lineEnd? rest
    some ((k, v), rest)
  | _ => none

/-- The entries of a text of at most `limit` lines. -/
def entriesWithin : (limit : Nat) → List Char → Option (List (List Char × List Char))
  | _, [] => some []
  | 0, _ => none
  | limit + 1, text =>
    match lineEnd? text with
    | some rest => entriesWithin limit rest
    | none => do
      let (e, rest) ← entry text
      let later ← entriesWithin limit rest
      some (e :: later)

/-- The entries of a document, in their order.  A byte order mark may come first. -/
def entries? (text : List Char) : Option (List (List Char × List Char)) :=
  let text := match text with
    | '\ufeff' :: rest => rest
    | text => text
  entriesWithin text.length text

end MolePuzzle.Settings.Document
