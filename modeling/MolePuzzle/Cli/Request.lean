import MolePuzzle.Disk.Path
import MolePuzzle.Text.Numeral

/-!
# Requests on the command line

A command line names one verb, and gives options before and after it.  `Request.parse?` finds out
what is asked for, or refuses the arguments as a whole; it does not look at any file.

An option is written with two hyphens and its name, or with one hyphen and its letter.  The value of
an option follows in the next argument, or in the same one: after an equals sign, and after a letter
also directly.  A value of its own argument does not begin with a hyphen, unless it is just that.
After two hyphens on their own, all arguments are operands.
-/

set_option autoImplicit false

namespace MolePuzzle.Cli

/-- One argument of the command line. -/
abbrev Arg := List Char

/-! ## Options and verbs -/

/-- The options. -/
inductive Opt where
  | config
  | level
  | file
  | moves
  | out
  | force
  | allowInvalid
  | resize
  | paint
  deriving DecidableEq, Repr, Inhabited

namespace Opt

/-- The options by their names. -/
def names : List (String × Opt) :=
  [("config", config), ("level", level), ("file", file), ("moves", moves), ("out", out),
   ("force", force), ("allow-invalid", allowInvalid), ("resize", resize), ("paint", paint)]

/-- The options by their letters, as far as they have one. -/
def letters : List (Char × Opt) :=
  [('c', config), ('l', level), ('f', file), ('m', moves), ('o', out)]

/-- The option of the given name. -/
def ofName? (name : Arg) : Option Opt :=
  (names.find? fun entry ↦ entry.1.toList == name).map Prod.snd

/-- Does the option take a value?  Those that have a letter all do. -/
def takesValue : Opt → Bool
  | force => false
  | allowInvalid => false
  | _ => true

/-- Is the value of the option a path?  Then it is not empty. -/
def takesPath : Opt → Bool
  | config => true
  | file => true
  | out => true
  | _ => false

end Opt

/-- The verbs. -/
inductive Verb where
  | play
  | display
  | save
  | share
  | unshare
  | validate
  | levels
  | edit
  deriving DecidableEq, Repr, Inhabited

namespace Verb

/-- The verbs by their names. -/
def names : List (String × Verb) :=
  [("play", play), ("show", display), ("save", save), ("share", share), ("unshare", unshare),
   ("validate", validate), ("levels", levels), ("edit", edit)]

/-- The verb of the given name. -/
def ofName? (name : Arg) : Option Verb :=
  (names.find? fun entry ↦ entry.1.toList == name).map Prod.snd

/-- The options that a verb has of its own. -/
def options : Verb → List Opt
  | play => [.level, .file, .moves]
  | display => [.level, .file]
  | save => [.level, .file, .out, .force, .allowInvalid]
  | share => [.level, .file]
  | unshare => [.out, .force]
  | validate => [.level, .file]
  | levels => []
  | edit => [.level, .file, .resize, .paint, .out, .force, .allowInvalid]

/-- Does the option make sense after the verb? -/
def allows (v : Verb) (o : Opt) : Bool := o == .config || v.options.contains o

end Verb

/-! ## Reading arguments -/

/-- What an argument is by its form. -/
inductive ArgForm where
  /-- It says that only operands follow. -/
  | separator
  /-- It is an option together with its value. -/
  | option (o : Opt) (value : Arg)
  /-- It is an option whose value is in the next argument. -/
  | pending (o : Opt)
  | operand
  | invalid
  deriving DecidableEq, Repr

/-- The form of an option that was written by its name, with or without a value. -/
def namedForm (o : Opt) (value : Option Arg) : ArgForm :=
  match o.takesValue, value with
  | true, some v => .option o v
  | true, none => .pending o
  | false, none => .option o []
  | false, some _ => .invalid

/-- The form of an option that was written by its letter, with what follows the letter. -/
def letteredForm (o : Opt) : (rest : List Char) → ArgForm
  | [] => .pending o
  | '=' :: value => .option o value
  | value => .option o value

/-- The form of an argument where the given options are allowed. -/
def argForm (allows : Opt → Bool) : Arg → ArgForm
  | ['-', '-'] => .separator
  | '-' :: '-' :: text =>
    let name := text.takeWhile (· != '=')
    let value := if text.contains '=' then some ((text.dropWhile (· != '=')).drop 1) else none
    match Opt.ofName? name with
    | none => .invalid
    | some o => if allows o then namedForm o value else .invalid
  | '-' :: letter :: rest =>
    match Opt.letters.lookup letter with
    | none => .invalid
    | some o => if allows o then letteredForm o rest else .invalid
  | _ => .operand

/-- Does the argument begin like an option? -/
def looksLikeOption : Arg → Bool
  | '-' :: _ :: _ => true
  | _ => false

/-- Options with their values, in the order in which they were given. -/
abbrev Options := List (Opt × Arg)

/-- The options and operands among arguments.  If the option `awaiting` is given, the first argument
is its value. -/
def scan (allows : Opt → Bool) (awaiting : Option Opt) : List Arg → Option (Options × List Arg)
  | [] => if awaiting.isSome then none else some ([], [])
  | arg :: rest =>
    match awaiting with
    | some o =>
      if looksLikeOption arg then none
      else (scan allows none rest).map fun (options, operands) ↦ ((o, arg) :: options, operands)
    | none =>
      match argForm allows arg with
      | .separator => some ([], rest)
      | .option o value =>
        (scan allows none rest).map fun (options, operands) ↦ ((o, value) :: options, operands)
      | .pending o => scan allows (some o) rest
      | .operand => (scan allows none rest).map fun (options, operands) ↦ (options, arg :: operands)
      | .invalid => none

/-- A command line taken apart: the options before the verb, the verb, and the options and operands
after it. -/
structure Parts where
  global : Options
  verb : Verb
  options : Options
  operands : List Arg
  deriving Repr

/-- Takes a command line apart.  Only the settings file can be named before the verb. -/
def split? (awaiting : Option Opt) : List Arg → Option Parts
  | [] => none
  | arg :: rest =>
    match awaiting with
    | some o =>
      if looksLikeOption arg then none
      else (split? none rest).map fun parts ↦ { parts with global := (o, arg) :: parts.global }
    | none =>
      match argForm (· == .config) arg with
      | .option o value =>
        (split? none rest).map fun parts ↦ { parts with global := (o, value) :: parts.global }
      | .pending o => split? (some o) rest
      | .operand => do
        let verb ← Verb.ofName? arg
        let (options, operands) ← scan verb.allows none rest
        some ⟨[], verb, options, operands⟩
      | .separator => none
      | .invalid => none

/-! ## Requests -/

/-- Where a level comes from. -/
inductive Source where
  | unspecified
  | catalog (number : Nat)
  | file (path : Path)
  deriving DecidableEq, Repr, Inhabited

/-- Where a level is saved. -/
structure Target where
  path : Path
  /-- May a file that is there be replaced? -/
  overwrite : Bool
  /-- Are levels saved that cannot be played? -/
  allowInvalid : Bool
  deriving DecidableEq, Repr, Inhabited

/-- What is to be done. -/
inductive Action where
  | play (source : Source) (moves : List Char)
  | display (source : Source)
  | save (source : Source) (target : Target)
  | share (source : Source)
  | unshare (code : List Char) (target : Option Target)
  | validate (source : Source)
  | levels
  | edit (source : Source) (resize : Option (List Char)) (strokes : List (List Char))
      (target : Option Target)
  deriving DecidableEq, Repr, Inhabited

namespace Action

/-- The file that is read for an action. -/
def sourceFile? : Action → Option Path
  | play (.file path) _ => some path
  | display (.file path) => some path
  | save (.file path) _ => some path
  | share (.file path) => some path
  | validate (.file path) => some path
  | edit (.file path) _ _ _ => some path
  | _ => none

/-- Where the level is saved that an action leads to. -/
def target? : Action → Option Target
  | save _ target => some target
  | unshare _ target => target
  | edit _ _ _ target => target
  | _ => none

end Action

/-- A command line that was understood. -/
structure Request where
  /-- The settings file. -/
  config : Option Path
  action : Action
  deriving DecidableEq, Repr, Inhabited

namespace Options

/-- The values that were given to an option. -/
def values (given : Options) (o : Opt) : List Arg :=
  given.filterMap fun entry ↦ if entry.1 = o then some entry.2 else none

/-- The value that was given to an option. -/
def value? (given : Options) (o : Opt) : Option Arg := (values given o).head?

/-- Was the option given? -/
def has (given : Options) (o : Opt) : Bool := (value? given o).isSome

/-- The path that was given to an option. -/
def path? (given : Options) (o : Opt) : Option Path := (value? given o).map Path.mk

/-- Is every option given at most once that may not be repeated, and is no path empty? -/
def wellFormed (given : Options) : Bool :=
  given.all fun (o, value) ↦
    (o == .paint || (values given o).length == 1) && !(o.takesPath && value.isEmpty)

/-- The largest number that a level can have. -/
def maxLevel : Nat := 18446744073709551615

/-- The source that options give. -/
def source? (given : Options) : Option Source :=
  match value? given .level, path? given .file with
  | none, none => some .unspecified
  | none, some path => some (.file path)
  | some level, none => do
    let number ← Text.numeral? level
    if number ≤ maxLevel then some (.catalog number) else none
  | some _, some _ => none

/-- The target that options give.  The options about saving require one. -/
def target? (given : Options) : Option (Option Target) :=
  match path? given .out with
  | none => if has given .force || has given .allowInvalid then none else some none
  | some path => some (some ⟨path, has given .force, has given .allowInvalid⟩)

end Options

/-- The action that a verb with its options and operands asks for. -/
def action? (verb : Verb) (given : Options) (operands : List Arg) : Option Action := do
  let source ← Options.source? given
  let target ← Options.target? given
  match verb, operands, target with
  | .play, [], _ => some (.play source ((Options.value? given .moves).getD []))
  | .display, [], _ => some (.display source)
  | .save, [], some target => some (.save source target)
  | .share, [], _ => some (.share source)
  | .unshare, [code], target => some (.unshare code target)
  | .validate, [], _ => some (.validate source)
  | .levels, [], _ => some .levels
  | .edit, [], target =>
    some (.edit source (Options.value? given .resize) (Options.values given .paint) target)
  | _, _, _ => none

namespace Request

/-- What the arguments ask for, unless they are refused.  A settings file that is named after the
verb takes the place of one named before it. -/
def parse? (args : List Arg) : Option Request := do
  let parts ← split? none args
  if parts.global.wellFormed && parts.options.wellFormed then
    let action ← action? parts.verb parts.options parts.operands
    let config := (parts.options.path? .config).or (parts.global.path? .config)
    some ⟨config, action⟩
  else none

end Request

end MolePuzzle.Cli
