import MolePuzzle.Disk.Path
import MolePuzzle.Text.Utf8

/-!
# Disks

A disk is a tree of directories and files, as it is seen from one working directory.  Its places are
named by the names on the way to them from the working directory, and a path leads to a place if all
that it passes through are directories.  A text that is too long, or has a null character in it, is
no path, and a name can be too long as well.

The four operations on it are those that level files need: reading a file, making a directory,
making it together with the directories above it, and writing a file, new or in place of an old one.
Each of them can be refused.
-/

set_option autoImplicit false

namespace MolePuzzle

/-- Why an operation on a disk is refused. -/
inductive Refusal where
  | notFound
  | alreadyExists
  /-- The way leads through a file. -/
  | notDirectory
  /-- A file was wanted, and there is a directory. -/
  | isDirectory
  /-- The path, or a name in it, has more bytes than it may have. -/
  | tooLong
  /-- The path has a null character in it. -/
  | nullCharacter
  deriving DecidableEq, Repr, Inhabited

/-- The text shown for a refusal. -/
def Refusal.message : Refusal → String
  | notFound => "No such file or directory (os error 2)"
  | alreadyExists => "File exists (os error 17)"
  | notDirectory => "Not a directory (os error 20)"
  | isDirectory => "Is a directory (os error 21)"
  | tooLong => "File name too long (os error 36)"
  | nullCharacter => "file name contained an unexpected NUL byte"

/-! ## Places -/

/-- The names on the way from the working directory to a place.  Places that are not below it are
reached over names for the directory above, or over the root, which is called by its slash. -/
abbrev Location := List Name

namespace Location

/-- The root of all directories. -/
def root : Location := [['/']]

/-- The directories that are always there: the working directory, those it lies in, and the root. -/
def isGiven (l : Location) : Bool := l == root || l.all (· == Name.above)

/-- The directory a place lies in. -/
def parent (l : Location) : Location :=
  if l = root then root else if l.isGiven then l ++ [Name.above] else l.dropLast

/-- The place of the given name in a directory. -/
def child (l : Location) (n : Name) : Location := if n = Name.above then l.parent else l ++ [n]

/-- A path to a place. -/
def path (l : Location) : Path :=
  if l.head? = root.head? then ⟨'/' :: ['/'].intercalate l.tail⟩ else ⟨['/'].intercalate l⟩

end Location

/-! ## The disk -/

/-- What there can be at a place. -/
inductive Node where
  | directory
  | file (bytes : List UInt8)
  deriving DecidableEq, Repr, Inhabited

/-- The directories and files, each with its place. -/
structure Disk where
  /-- What there is, at most once at each place. -/
  nodes : List (Location × Node) := []
  deriving DecidableEq, Repr, Inhabited

namespace Disk

/-- What there is at a place. -/
def node? (d : Disk) (l : Location) : Option Node :=
  if l.isGiven then some .directory else d.nodes.lookup l

/-- The bytes of the file at a place. -/
def file? (d : Disk) (l : Location) : Option (List UInt8) :=
  match d.node? l with
  | some (.file bytes) => some bytes
  | _ => none

/-- Puts something at a place. -/
def put (d : Disk) (l : Location) (n : Node) : Disk :=
  ⟨(l, n) :: d.nodes.filter fun entry ↦ entry.1 ≠ l⟩

theorem lookup_filter_ne {l m : Location} (h : m ≠ l) (nodes : List (Location × Node)) :
    (nodes.filter fun entry ↦ entry.1 ≠ l).lookup m = nodes.lookup m := by
  induction nodes with
  | nil => rfl
  | cons entry rest ih =>
    obtain ⟨k, n⟩ := entry
    by_cases hk : k = l
    · have hmk : (m == k) = false := by rw [hk]; simpa using h
      rw [List.filter_cons_of_neg (by simpa using hk), ih, List.lookup_cons, hmk]
    · rw [List.filter_cons_of_pos (by simpa using hk), List.lookup_cons, List.lookup_cons, ih]

theorem node?_put {d : Disk} {l m : Location} {n : Node} (h : l.isGiven = false) :
    (d.put l n).node? m = if m = l then some n else d.node? m := by
  unfold node? put
  by_cases hm : m = l
  · subst hm
    simp [h]
  · have hml : (m == l) = false := by simpa using hm
    rw [if_neg hm, List.lookup_cons, hml, lookup_filter_ne hm]

/-! ## Following paths -/

/-- The place of the given name in a directory, unless the name is too long. -/
def lookUp (l : Location) (n : Name) : Except Refusal Location :=
  if n.staysHere then .ok l
  else if Name.maxBytes < (Text.Utf8.encode n).length then .error .tooLong
  else .ok (l.child n)

/-- The directory of the given name in a directory. -/
def enter (d : Disk) (l : Location) (n : Name) : Except Refusal Location := do
  let next ← lookUp l n
  match d.node? next with
  | some .directory => return next
  | some (.file _) => throw .notDirectory
  | none => throw .notFound

/-- Refuses the texts that cannot be paths to anything, before they are followed. -/
def checkPath (p : Path) : Except Refusal Unit :=
  if '\x00' ∈ p.chars then .error .nullCharacter
  else if p.chars.isEmpty then .error .notFound
  else if Path.maxBytes < (Text.Utf8.encode p.chars).length then .error .tooLong
  else .ok ()

/-- The place a path sets out from. -/
def origin (p : Path) : Location := if p.isAbsolute then Location.root else []

/-- The directory that names lead to. -/
def walk (d : Disk) (p : Path) (names : List Name) : Except Refusal Location :=
  names.foldlM d.enter (origin p)

/-- The place that a path refers to.  There need not be anything at it, but all that the path passes
through has to be there. -/
def locate (d : Disk) (p : Path) : Except Refusal Location := do
  checkPath p
  let directory ← d.walk p p.names.dropLast
  lookUp directory (p.names.getLast?.getD [])

/-- What there is where a path leads. -/
def at? (d : Disk) (p : Path) : Option Node :=
  match d.locate p with
  | .ok l => d.node? l
  | .error _ => none

/-! ## Reading -/

/-- The bytes of the file at a path. -/
def read (d : Disk) (p : Path) : Except Refusal (List UInt8) := do
  match d.node? (← d.locate p) with
  | some (.file bytes) => return bytes
  | some .directory => throw .isDirectory
  | none => throw .notFound

/-! ## Making directories -/

/-- Makes a directory in one that is there. -/
def makeDirectory (d : Disk) (p : Path) : Except Refusal Disk := do
  let l ← d.locate p
  if (d.node? l).isSome then throw .alreadyExists else return d.put l .directory

/-- Makes the first of the paths a directory, each of which is followed by the one above it.  Where
the ones above are missing they are made first.  Those made stay even if a later one is refused. -/
def makeDirectories (d : Disk) : List Path → Disk × Except Refusal Unit
  | [] => (d, .error .notFound)
  | p :: above =>
    if p.chars.isEmpty then (d, .ok ())
    else match d.makeDirectory p with
      | .ok made => (made, .ok ())
      | .error .notFound =>
        match d.makeDirectories above with
        | (d, .error refusal) => (d, .error refusal)
        | (d, .ok ()) =>
          match d.makeDirectory p with
          | .ok made => (made, .ok ())
          | .error refusal =>
            (d, if d.at? p = some .directory then .ok () else .error refusal)
      | .error refusal => (d, if d.at? p = some .directory then .ok () else .error refusal)

/-- Makes a directory together with those above it that are missing. -/
def makeAll (d : Disk) (p : Path) : Disk × Except Refusal Unit :=
  d.makeDirectories (p.ancestors p.chars.length)

/-! ## Writing -/

/-- The place at which a path has a file written.  A path that ends in a slash, or in a name for the
directory itself or the one above, has no such place. -/
def locateNew (d : Disk) (p : Path) (overwrite : Bool) : Except Refusal Location := do
  checkPath p
  let names := (p.names.reverse.dropWhile List.isEmpty).reverse
  match names.getLast? with
  | none => throw .notFound
  | some last =>
    let directory ← d.walk p names.dropLast
    if last = Name.here ∨ last = Name.above then
      throw (if overwrite then .isDirectory else .alreadyExists)
    if names ≠ p.names then throw .isDirectory
    lookUp directory last

/-- Writes a file.  One that is there already is replaced only if this is wanted. -/
def write (d : Disk) (p : Path) (bytes : List UInt8) (overwrite : Bool) : Except Refusal Disk := do
  let l ← d.locateNew p overwrite
  match d.node? l with
  | none => return d.put l (.file bytes)
  | some (.file _) => if overwrite then return d.put l (.file bytes) else throw .alreadyExists
  | some .directory => throw (if overwrite then .isDirectory else .alreadyExists)

/-! ## Contents -/

/-- The disk with the given files, and the directories that they lie in. -/
def ofFiles (files : List (Path × List UInt8)) : Disk :=
  files.foldl (fun d (path, bytes) ↦
    let d := match path.parent? with
      | none => d
      | some parent => (d.makeAll parent).1
    match d.write path bytes true with
    | .ok d => d
    | .error _ => d) {}

/-- The files below the working directory, with their paths from there. -/
def files (d : Disk) : List (Path × List UInt8) :=
  d.nodes.filterMap fun (l, n) ↦
    match n with
    | .directory => none
    | .file bytes =>
      if l.head? = some Name.above ∨ l.head? = Location.root.head? then none
      else some (l.path, bytes)

end Disk

end MolePuzzle
