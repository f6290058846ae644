import Mathlib.Data.List.TakeWhile
import Mathlib.Data.Set.List
import MolePuzzle.Proofs.Result
import MolePuzzle.Proofs.Run
import MolePuzzle.Script.Moves

/-!
# Reading a move script by its parts

A move script is read from one end to the other, and a character that means nothing ends the reading
with an error that tells its place.  So two scripts one after the other are read as the commands of
the first and then those of the second, and an error in the second is found further on by as many
characters as the first one has (`Script.moves_append`).

The two outcomes are described without reading (`Script.movesFrom_eq_ok_iff`,
`Script.movesFrom_eq_error_iff`): a script is refused for its first character that is no letter of a
command, no comma and no white space, and otherwise its commands are those of its letters.  Hence
commas and white space may be put anywhere into a script that can be read.
-/

set_option autoImplicit false

namespace MolePuzzle

/-- The error of a text, if there are `k` more characters before it. -/
def ScriptError.later (k : Nat) : ScriptError → ScriptError
  | unknownMove symbol position => unknownMove symbol (position + k)
  | e => e

/-- The letter for a play. -/
def Play.letter : Play → Char
  | move .up => 'U'
  | move .down => 'D'
  | move .left => 'L'
  | move .right => 'R'
  | undo => 'z'
  | redo => 'y'

namespace Script

variable {c : Char} {text text' : List Char} {position : Nat} {command : Command}
  {commands : List Command} {e : ScriptError}

/-! ## The characters of a script -/

/-- The letters that have a meaning, in either case. -/
def letters : List Char := ['U', 'D', 'L', 'R', 'Z', 'Y', 'u', 'd', 'l', 'r', 'z', 'y']

/-- The character may stand in a script: it is a letter with a meaning, a comma or white space. -/
def IsScriptChar (c : Char) : Prop := c ∈ letters ∨ c = ',' ∨ Text.isBlank c = true

instance (c : Char) : Decidable (IsScriptChar c) := inferInstanceAs (Decidable (_ ∨ _))

theorem isFiller_iff : isFiller c = true ↔ c = ',' ∨ Text.isBlank c = true := by
  rw [isFiller, Bool.or_eq_true, beq_iff_eq]

theorem commandOf?_eq_none_iff : commandOf? c = none ↔ c ∉ letters := by
  have hletters : ∀ c ∈ letters, commandOf? c ≠ none := by simp [letters, commandOf?]
  constructor
  · exact fun h hc ↦ hletters c hc h
  · intro h
    unfold commandOf?
    split <;> first | rfl | exact absurd (by decide) h

/-- No filler is a letter. -/
theorem commandOf?_of_isFiller (h : isFiller c = true) : commandOf? c = none := by
  have hletters : ∀ c ∈ letters, isFiller c = false := by
    simp [letters, isFiller, Text.isBlank]
  rw [commandOf?_eq_none_iff]
  intro hc
  rw [hletters c hc] at h
  cases h

theorem isScriptChar_iff : IsScriptChar c ↔ isFiller c = true ∨ commandOf? c ≠ none := by
  rw [IsScriptChar, isFiller_iff, Ne, commandOf?_eq_none_iff, not_not, or_comm]

theorem exists_play_of_commandOf? (h : commandOf? c = some command) :
    ∃ p : Play, command = p.command := by
  unfold commandOf? at h
  split at h <;> cases h <;>
    first | exact ⟨.move _, rfl⟩ | exact ⟨.undo, rfl⟩ | exact ⟨.redo, rfl⟩

/-! ## Character by character -/

theorem movesFrom_cons_filler (h : isFiller c = true) :
    movesFrom position (c :: text) = movesFrom (position + 1) text := by
  rw [movesFrom, if_pos h]

theorem movesFrom_cons_command (h : commandOf? c = some command) :
    movesFrom position (c :: text) = (movesFrom (position + 1) text).map (command :: ·) := by
  have hfiller : ¬ isFiller c = true := by
    intro hfiller
    rw [commandOf?_of_isFiller hfiller] at h
    cases h
  rw [movesFrom, if_neg hfiller, h]

theorem movesFrom_cons_unknown (h : ¬ IsScriptChar c) :
    movesFrom position (c :: text) = .error (.unknownMove c position) := by
  rw [isScriptChar_iff, not_or, not_not] at h
  rw [movesFrom, if_neg h.1, h.2]

/-- A character is skipped, stands for a command, or has no meaning. -/
theorem char_cases (c : Char) :
    isFiller c = true ∨ (∃ command, commandOf? c = some command) ∨ ¬ IsScriptChar c := by
  rw [isScriptChar_iff, Option.ne_none_iff_exists']
  by_cases hfiller : isFiller c = true
  · exact .inl hfiller
  · by_cases hcommand : ∃ command, commandOf? c = some command
    · exact .inr (.inl hcommand)
    · exact .inr (.inr (not_or.mpr ⟨hfiller, hcommand⟩))

/-! ## One script after another -/

/-- The second part is read from where the first one ends. -/
theorem movesFrom_append (position : Nat) (text text' : List Char) :
    movesFrom position (text ++ text') = movesFrom position text >>= fun early ↦
      (movesFrom (position + text.length) text').map (early ++ ·) := by
  induction text generalizing position with
  | nil =>
    show movesFrom position text' = (movesFrom position text').map ([] ++ ·)
    cases movesFrom position text' <;> rfl
  | cons c rest ih =>
    have hlength : position + (c :: rest).length = position + 1 + rest.length := by
      rw [List.length_cons]
      omega
    rw [List.cons_append, hlength]
    rcases char_cases c with hfiller | ⟨command, hcommand⟩ | hunknown
    · rw [movesFrom_cons_filler hfiller, movesFrom_cons_filler hfiller, ih]
    · rw [movesFrom_cons_command hcommand, movesFrom_cons_command hcommand, ih]
      cases movesFrom (position + 1) rest with
      | error e => rfl
      | ok early => cases movesFrom (position + 1 + rest.length) text' <;> rfl
    · rw [movesFrom_cons_unknown hunknown, movesFrom_cons_unknown hunknown]
      rfl

/-- Where the reading starts matters only to the place that an error tells. -/
theorem movesFrom_add (position k : Nat) (text : List Char) :
    movesFrom (position + k) text = (movesFrom position text).mapError (.later k) := by
  induction text generalizing position with
  | nil => rfl
  | cons c rest ih =>
    rcases char_cases c with hfiller | ⟨command, hcommand⟩ | hunknown
    · rw [movesFrom_cons_filler hfiller, movesFrom_cons_filler hfiller, Nat.add_right_comm, ih]
    · rw [movesFrom_cons_command hcommand, movesFrom_cons_command hcommand, Nat.add_right_comm, ih]
      cases movesFrom (position + 1) rest <;> rfl
    · rw [movesFrom_cons_unknown hunknown, movesFrom_cons_unknown hunknown]
      rfl

/-- **A script is read by its parts.** -/
theorem moves_append (text text' : List Char) :
    moves (text ++ text') = moves text >>= fun early ↦
      ((moves text').mapError (.later text.length)).map (early ++ ·) := by
  rw [moves, movesFrom_append, movesFrom_add]
  rfl

/-! ## The two outcomes -/

/-- **What is read of a script**: the commands of its letters, if there is nothing in it that has no
meaning. -/
theorem movesFrom_eq_ok_iff : movesFrom position text = .ok commands ↔
    (∀ c ∈ text, IsScriptChar c) ∧ text.filterMap commandOf? = commands := by
  induction text generalizing position commands with
  | nil => simp [movesFrom]
  | cons c rest ih =>
    rw [List.forall_mem_cons]
    rcases char_cases c with hfiller | ⟨command, hcommand⟩ | hunknown
    · have hchar : IsScriptChar c := isScriptChar_iff.mpr (.inl hfiller)
      rw [movesFrom_cons_filler hfiller, ih, and_iff_right hchar,
        List.filterMap_cons_none (commandOf?_of_isFiller hfiller)]
    · have hchar : IsScriptChar c := isScriptChar_iff.mpr (.inr (by simp [hcommand]))
      rw [movesFrom_cons_command hcommand, map_eq_ok_iff, and_iff_right hchar,
        List.filterMap_cons_some hcommand]
      simp only [ih]
      constructor
      · rintro ⟨_, ⟨hrest, rfl⟩, rfl⟩
        exact ⟨hrest, rfl⟩
      · rintro ⟨hrest, rfl⟩
        exact ⟨_, ⟨hrest, rfl⟩, rfl⟩
    · rw [movesFrom_cons_unknown hunknown]
      simp [hunknown]

theorem movesFrom_append_unknown {before after : List Char}
    (hbefore : ∀ c ∈ before, IsScriptChar c) (hc : ¬ IsScriptChar c) :
    movesFrom position (before ++ c :: after) =
      .error (.unknownMove c (position + before.length)) := by
  rw [movesFrom_append, movesFrom_eq_ok_iff.mpr ⟨hbefore, rfl⟩, movesFrom_cons_unknown hc]
  rfl

/-- A text with a character that has no meaning has a first one. -/
theorem exists_first_unknown (h : ¬ ∀ c ∈ text, IsScriptChar c) :
    ∃ before symbol after, text = before ++ symbol :: after ∧
      (∀ c ∈ before, IsScriptChar c) ∧ ¬ IsScriptChar symbol := by
  have hdrop : text.dropWhile (fun c ↦ decide (IsScriptChar c)) ≠ [] := by
    simpa [List.dropWhile_eq_nil_iff] using h
  obtain ⟨symbol, after, hcons⟩ := List.exists_cons_of_ne_nil hdrop
  refine ⟨text.takeWhile fun c ↦ decide (IsScriptChar c), symbol, after, ?_, fun c hc ↦ ?_, ?_⟩
  · rw [← hcons, List.takeWhile_append_dropWhile]
  · simpa using List.mem_takeWhile_imp hc
  · have hhead := List.head_dropWhile_not (fun c ↦ decide (IsScriptChar c)) hdrop
    simpa [hcons] using hhead

/-- **Why a script is refused**: for its first character that has no meaning, at its place. -/
theorem movesFrom_eq_error_iff : movesFrom position text = .error e ↔
    ∃ before symbol after, text = before ++ symbol :: after ∧ (∀ c ∈ before, IsScriptChar c) ∧
      ¬ IsScriptChar symbol ∧ e = .unknownMove symbol (position + before.length) := by
  constructor
  · intro h
    have hbad : ¬ ∀ c ∈ text, IsScriptChar c := by
      intro hall
      rw [movesFrom_eq_ok_iff.mpr ⟨hall, rfl⟩] at h
      cases h
    obtain ⟨before, symbol, after, rfl, hbefore, hsymbol⟩ := exists_first_unknown hbad
    rw [movesFrom_append_unknown hbefore hsymbol] at h
    cases h
    exact ⟨before, symbol, after, rfl, hbefore, hsymbol, rfl⟩
  · rintro ⟨before, symbol, after, rfl, hbefore, hsymbol, rfl⟩
    exact movesFrom_append_unknown hbefore hsymbol

/-- A script can be read or not by its characters alone. -/
theorem exists_moves_eq_ok_iff :
    (∃ commands, moves text = .ok commands) ↔ ∀ c ∈ text, IsScriptChar c :=
  ⟨fun ⟨_, h⟩ ↦ (movesFrom_eq_ok_iff.mp h).1, fun h ↦ ⟨_, movesFrom_eq_ok_iff.mpr ⟨h, rfl⟩⟩⟩

theorem exists_moves_eq_error_iff :
    (∃ e, moves text = .error e) ↔ ∃ c ∈ text, ¬ IsScriptChar c := by
  have hread : (∃ e, moves text = .error e) ↔ ¬ ∃ commands, moves text = .ok commands := by
    cases moves text <;> simp
  rw [hread, exists_moves_eq_ok_iff]
  push Not
  exact Iff.rfl

/-! ## Scripts for commands -/

/-- The script without commas and white space. -/
def bare (text : List Char) : List Char := text.filter fun c ↦ !isFiller c

/-- **Commas and white space make no difference** to the commands. -/
theorem moves_bare_eq_ok_iff : moves (bare text) = .ok commands ↔ moves text = .ok commands := by
  rw [moves, moves, movesFrom_eq_ok_iff, movesFrom_eq_ok_iff]
  refine and_congr ⟨fun h c hc ↦ ?_, fun h c hc ↦ h c (List.mem_of_mem_filter hc)⟩ ?_
  · cases hfiller : isFiller c with
    | true => exact isScriptChar_iff.mpr (.inl hfiller)
    | false => exact h c (List.mem_filter.mpr ⟨hc, by simp [hfiller]⟩)
  · rw [bare, List.filterMap_filter]
    refine Eq.congr_left (List.filterMap_congr fun c _ ↦ ?_)
    cases hfiller : isFiller c with
    | true => exact (commandOf?_of_isFiller hfiller).symm
    | false => rfl

theorem commandOf?_letter (p : Play) : commandOf? p.letter = some p.command := by
  cases p with
  | move d => cases d <;> rfl
  | undo => rfl
  | redo => rfl

/-- The letters for some plays are read as their commands. -/
theorem moves_map_letter (plays : List Play) :
    moves (plays.map Play.letter) = .ok (plays.map Play.command) := by
  refine movesFrom_eq_ok_iff.mpr ⟨?_, ?_⟩
  · refine List.forall_mem_map.mpr fun p _ ↦ isScriptChar_iff.mpr (.inr ?_)
    rw [commandOf?_letter]
    exact Option.some_ne_none _
  · rw [List.filterMap_map, ← List.filterMap_eq_map]
    exact List.filterMap_congr fun p _ ↦ commandOf?_letter p

/-- A script only plays. -/
theorem exists_play_of_mem_moves (h : moves text = .ok commands) :
    ∀ command ∈ commands, ∃ p : Play, command = p.command := by
  obtain ⟨-, rfl⟩ := movesFrom_eq_ok_iff.mp h
  intro command hcommand
  obtain ⟨c, -, hc⟩ := List.mem_filterMap.mp hcommand
  exact exists_play_of_commandOf? hc

/-- **The commands that scripts are read as** are the lists of plays. -/
theorem exists_moves_eq_iff_exists_plays :
    (∃ text, moves text = .ok commands) ↔
      ∃ plays : List Play, commands = plays.map Play.command := by
  constructor
  · rintro ⟨text, h⟩
    have hplays : commands ∈ Set.range (List.map Play.command) := by
      rw [Set.range_list_map]
      exact fun command hcommand ↦ (exists_play_of_mem_moves h command hcommand).imp fun _ ↦ Eq.symm
    exact hplays.imp fun _ ↦ Eq.symm
  · rintro ⟨plays, rfl⟩
    exact ⟨_, moves_map_letter plays⟩

/-! ## The whole -/

/-- **Move scripts are read by their parts.**

* Two scripts one after the other are read as the commands of both.  If the first is refused, so are
  the two together, with the same error.  If only the second is refused, its error comes further on
  by as many characters as the first one has.
* A script is refused exactly if there is a character in it that is no letter with a meaning, no
  comma and no white space.  The error names the first such character, and its place among all the
  characters.
* What scripts are read as are just the lists of moves and of steps back and forth.  Two scripts
  that differ only in commas and white space are read as the same commands. -/
theorem moves_by_parts :
    (∀ a b early late, moves a = .ok early → moves b = .ok late →
      moves (a ++ b) = .ok (early ++ late)) ∧
    (∀ a b e, moves a = .error e → moves (a ++ b) = .error e) ∧
    (∀ a b early symbol position, moves a = .ok early →
      moves b = .error (.unknownMove symbol position) →
      moves (a ++ b) = .error (.unknownMove symbol (position + a.length))) ∧
    (∀ text, (∃ e, moves text = .error e) ↔ ∃ c ∈ text, ¬ IsScriptChar c) ∧
    (∀ text e, moves text = .error e ↔ ∃ before symbol after, text = before ++ symbol :: after ∧
      (∀ c ∈ before, IsScriptChar c) ∧ ¬ IsScriptChar symbol ∧
      e = .unknownMove symbol before.length) ∧
    (∀ commands, (∃ text, moves text = .ok commands) ↔
      ∃ plays : List Play, commands = plays.map Play.command) ∧
    ∀ text text' commands, bare text = bare text' →
      (moves text = .ok commands ↔ moves text' = .ok commands) := by
  refine ⟨fun a b early late ha hb ↦ ?_, fun a b e ha ↦ ?_,
    fun a b early symbol position ha hb ↦ ?_, fun text ↦ exists_moves_eq_error_iff,
    fun text e ↦ ?_, fun commands ↦ exists_moves_eq_iff_exists_plays,
    fun text text' commands hbare ↦ ?_⟩
  · rw [moves_append, ha, hb]
    rfl
  · rw [moves_append, ha]
    rfl
  · rw [moves_append, ha, hb]
    rfl
  · rw [moves, movesFrom_eq_error_iff]
    simp only [Nat.zero_add]
  · rw [← moves_bare_eq_ok_iff, hbare, moves_bare_eq_ok_iff]

/-- A script with a wide blank, followed by one that is read and by one that is not, and the two of
them in the other order. -/
theorem moves_by_parts_wide_blank :
    let a := "R\u3000z,".toList
    let b := "lé".toList
    moves a = .ok [.move .right, .undo] ∧ moves ['l'] = .ok [.move .left] ∧
      moves (a ++ ['l']) = .ok [.move .right, .undo, .move .left] ∧
      moves b = .error (.unknownMove 'é' 1) ∧
      moves (a ++ b) = .error (.unknownMove 'é' 5) ∧
      moves (b ++ a) = .error (.unknownMove 'é' 1) ∧
      bare a = bare "Rz".toList ∧ moves "Rz".toList = .ok [.move .right, .undo] := by
  intro a b
  obtain ⟨happend, hfirst, hsecond, -, -, -, hbare⟩ := moves_by_parts
  have ha : moves a = .ok [.move .right, .undo] := by decide
  have hl : moves ['l'] = .ok [.move .left] := by decide
  have hb : moves b = .error (.unknownMove 'é' 1) := by decide
  have hsame : bare a = bare "Rz".toList := by decide
  exact ⟨ha, hl, happend _ _ _ _ ha hl, hb, hsecond _ _ _ _ _ ha hb, hfirst _ _ _ hb, hsame,
    (hbare _ _ _ hsame).mp ha⟩

end Script

end MolePuzzle
