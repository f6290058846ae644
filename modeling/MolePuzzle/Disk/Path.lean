import MolePuzzle.Text.Split

/-!
# Paths

A path is the text by which a file or a directory is referred to: names with slashes between them.
The empty name and the name `.` stay in the directory they stand in, and `..` goes to the one above.

This file is about the text alone.  The last name that goes anywhere is the name of the file; what
follows its last dot is its extension, unless the dot comes first.  Level files have an extension of
their own, which is appended to the path of a level file that does not have it.
-/

set_option autoImplicit false

namespace MolePuzzle

/-- One name of a path. -/
abbrev Name := List Char

namespace Name

/-- The name of the directory above. -/
def above : Name := ['.', '.']

/-- The name of a directory for itself. -/
def here : Name := ['.']

/-- The number of bytes that a name has at most. -/
def maxBytes : Nat := 255

/-- Does the name stay in the directory it stands in? -/
def staysHere (n : Name) : Bool := n.isEmpty || n == here

/-- What stands before and what stands after the last dot.  A name whose only dot comes first is all
stem. -/
def splitExtension (n : Name) : Name × Option Name :=
  match Text.cut? (· == '.') n.reverse with
  | none => (n, none)
  | some (_, []) => (n, none)
  | some (extension, stem) => (stem.reverse, some extension.reverse)

end Name

/-- The text of a path. -/
structure Path where
  /-- Its characters. -/
  chars : List Char
  deriving DecidableEq, Repr, Inhabited

namespace Path

/-- The number of bytes that a path has at most. -/
def maxBytes : Nat := 4095

/-- The path written as a string. -/
def ofString (s : String) : Path := ⟨s.toList⟩

/-- The path as a string. -/
def string (p : Path) : String := String.ofList p.chars

/-- Does the path start from the root of all directories? -/
def isAbsolute (p : Path) : Bool := p.chars.head? == some '/'

/-- The path of `p` within the directory `dir`.  One that is absolute is that already. -/
def join (dir p : Path) : Path :=
  if p.isAbsolute then p
  else if dir.chars.isEmpty || dir.chars.getLast? == some '/' then ⟨dir.chars ++ p.chars⟩
  else ⟨dir.chars ++ '/' :: p.chars⟩

/-- The names between the slashes.  A slash at either end has an empty name beside it. -/
def names (p : Path) : List Name := Text.split '/' p.chars

/-! ## The name of the file -/

/-- The name of the file, if the path refers to one by its name. -/
def fileName? (p : Path) : Option Name :=
  match p.names.reverse.dropWhile Name.staysHere with
  | [] => none
  | n :: _ => if n = Name.above then none else some n

/-- The name of the file without its extension. -/
def stem? (p : Path) : Option Name := p.fileName?.map fun n ↦ n.splitExtension.1

/-- The extension of the file. -/
def extension? (p : Path) : Option Name := p.fileName?.bind fun n ↦ n.splitExtension.2

/-- The extension of level files. -/
def levelExtension : Name := ['w', 'm', 'g', 'a', 'm', 'e']

/-- The path with the extension of level files, which is appended if it is missing. -/
def withLevelExtension (p : Path) : Path :=
  if p.extension? = some levelExtension then p else ⟨p.chars ++ '.' :: levelExtension⟩

/-! ## The directory of a path -/

/-- Names without those at the end that stay where they are. -/
def dropStaying (names : List Name) : List Name := (names.reverse.dropWhile Name.staysHere).reverse

/-- The names of a relative path that matter to its text.  A `.` in front is kept. -/
def relativeNames (names : List Name) : List Name :=
  if dropStaying names = [] ∧ names.head? = some Name.here then [Name.here] else dropStaying names

/-- The path that leads to the directory in which the last name stands, if there is a last name. -/
def parent? (p : Path) : Option Path :=
  if p.isAbsolute then
    match dropStaying p.names.tail with
    | [] => none
    | names => some ⟨'/' :: ['/'].intercalate (dropStaying names.dropLast)⟩
  else
    match relativeNames p.names with
    | [] => none
    | names => some ⟨['/'].intercalate (relativeNames names.dropLast)⟩

/-- The path itself and the directories above it, up to `limit` of them. -/
def ancestors (p : Path) : (limit : Nat) → List Path
  | 0 => [p]
  | limit + 1 =>
    match p.parent? with
    | none => [p]
    | some parent => p :: parent.ancestors limit

end Path

end MolePuzzle
