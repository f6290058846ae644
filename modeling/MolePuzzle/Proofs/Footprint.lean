import Mathlib.Data.List.TakeWhile
import MolePuzzle.Proofs.Disk
import MolePuzzle.Proofs.Printing

/-!
# What a command line leaves on the disk

A request is worked out before anything is printed or saved, so what it leaves behind can be told
from what it comes to.

* `Cli.Saves` says which world an action saves, and where.  Only `save`, and `edit` and `unshare`
  with a target, save one; all other requests come to a text, and leave the disk alone
  (`Cli.reply_eq_ok`).
* A file that is there already is replaced only on request, and the one argument that requests it is
  `--force` (`Cli.Request.force_mem_of_parse?`).

Together with what saving does to a disk this says how far any command line can reach: one that
fails has printed nothing and changed no file, and one that succeeds changes the file it names, if
any (`Cli.run_confined`).
-/

set_option autoImplicit false

namespace MolePuzzle.Cli

/-! ## The request to overwrite -/

section Force

variable {allows : Opt → Bool} {awaiting : Option Opt} {arg value : Arg} {args operands : List Arg}
  {options : Options} {o : Opt} {parts : Parts}

/-- The argument that lets a file be replaced. -/
def forceArg : Arg := "--force".toList

theorem Opt.ofName?_eq_force {name : Arg} (h : Opt.ofName? name = some .force) :
    name = "force".toList := by
  have honly : ∀ entry ∈ names, entry.2 = .force → entry.1 = "force" := by decide
  rw [ofName?, Option.map_eq_some_iff] at h
  obtain ⟨entry, hfind, hforce⟩ := h
  have hname := List.find?_some hfind
  rw [honly entry (List.mem_of_find?_eq_some hfind) hforce] at hname
  exact (beq_iff_eq.mp hname).symm

theorem Opt.lookup_letters_ne_force (letter : Char) : letters.lookup letter ≠ some .force := by
  intro h
  obtain ⟨before, after, hletters, -⟩ := List.lookup_eq_some_iff.mp h
  have hmem : (letter, force) ∈ letters := by simp [hletters]
  have hnone : ∀ entry ∈ letters, entry.2 ≠ force := by decide
  exact hnone _ hmem rfl

/-- The option that an argument gives, with its value or before it. -/
def ArgForm.opt? : ArgForm → Option Opt
  | option o _ => some o
  | pending o => some o
  | _ => none

theorem opt?_namedForm {given : Option Arg} (h : (namedForm o given).opt? = some .force) :
    o = .force ∧ given = none := by
  unfold namedForm at h
  split at h
  all_goals cases h
  · rename_i htakes
    cases htakes
  · rename_i htakes
    cases htakes
  · exact ⟨rfl, rfl⟩

theorem opt?_letteredForm (o : Opt) (rest : List Char) : (letteredForm o rest).opt? = some o := by
  unfold letteredForm
  split <;> rfl

/-- The option has no letter and takes no value, so there is one way to give it. -/
theorem eq_forceArg (h : (argForm allows arg).opt? = some .force) : arg = forceArg := by
  unfold argForm at h
  split at h
  · cases h
  · rename_i text _
    dsimp only at h
    split at h
    · cases h
    · rename_i hname
      split at h
      · obtain ⟨rfl, hvalue⟩ := opt?_namedForm h
        -- There is no equals sign, so all of the text is the name.
        have hequals : '=' ∉ text := by simpa using hvalue
        have htext : text.takeWhile (· != '=') = text :=
          List.takeWhile_eq_self_iff.mpr fun c hc ↦ by
            simpa using fun heq : c = '=' ↦ hequals (heq ▸ hc)
        rw [htext] at hname
        rw [Opt.ofName?_eq_force hname]
        rfl
      · cases h
  · split at h
    · cases h
    · rename_i hletter
      split at h
      · rw [opt?_letteredForm] at h
        exact absurd (hletter.trans h) (Opt.lookup_letters_ne_force _)
      · cases h
  · cases h

theorem force_mem_of_scan (h : scan allows awaiting args = some (options, operands))
    (hawaiting : awaiting ≠ some .force) (hforce : (.force, value) ∈ options) :
    forceArg ∈ args := by
  induction args generalizing awaiting options operands with
  | nil =>
    rw [scan] at h
    split at h <;> cases h
    cases hforce
  | cons arg rest ih =>
    cases awaiting with
    | some o =>
      simp only [scan] at h
      split at h
      · cases h
      · obtain ⟨⟨later, left⟩, hrest, hparts⟩ := Option.map_eq_some_iff.mp h
        cases hparts
        rcases List.mem_cons.mp hforce with hhead | hlater
        · cases hhead
          exact absurd rfl hawaiting
        · exact List.mem_cons_of_mem _ (ih hrest (by simp) hlater)
    | none =>
      simp only [scan] at h
      split at h
      · cases h
        cases hforce
      · rename_i hform
        obtain ⟨⟨later, left⟩, hrest, hparts⟩ := Option.map_eq_some_iff.mp h
        cases hparts
        rcases List.mem_cons.mp hforce with hhead | hlater
        · cases hhead
          rw [eq_forceArg (congrArg ArgForm.opt? hform)]
          exact List.mem_cons_self
        · exact List.mem_cons_of_mem _ (ih hrest (by simp) hlater)
      · rename_i o hform
        by_cases ho : o = .force
        · subst ho
          rw [eq_forceArg (congrArg ArgForm.opt? hform)]
          exact List.mem_cons_self
        · have hne : some o ≠ some .force := fun heq ↦ ho (Option.some.inj heq)
          exact List.mem_cons_of_mem _ (ih h hne hforce)
      · obtain ⟨⟨later, left⟩, hrest, hparts⟩ := Option.map_eq_some_iff.mp h
        cases hparts
        exact List.mem_cons_of_mem _ (ih hrest (by simp) hforce)
      · cases h

theorem force_mem_of_split? (h : split? awaiting args = some parts)
    (hforce : (.force, value) ∈ parts.options) : forceArg ∈ args := by
  induction args generalizing awaiting parts with
  | nil => cases h
  | cons arg rest ih =>
    refine List.mem_cons_of_mem _ ?_
    cases awaiting with
    | some o =>
      simp only [split?] at h
      split at h
      · cases h
      · obtain ⟨later, hrest, rfl⟩ := Option.map_eq_some_iff.mp h
        exact ih hrest hforce
    | none =>
      simp only [split?] at h
      split at h
      · obtain ⟨later, hrest, rfl⟩ := Option.map_eq_some_iff.mp h
        exact ih hrest hforce
      · exact ih h hforce
      · simp only [Option.bind_eq_bind, Option.bind_eq_some_iff] at h
        obtain ⟨verb, -, ⟨options, operands⟩, hscan, hparts⟩ := h
        cases hparts
        exact force_mem_of_scan hscan (by simp) hforce
      · cases h
      · cases h

theorem Options.mem_of_has (h : has options o = true) : ∃ value, (o, value) ∈ options := by
  rw [has, value?, Option.isSome_iff_exists] at h
  obtain ⟨value, hhead⟩ := h
  obtain ⟨entry, hmem, hvalue⟩ := List.mem_filterMap.mp (List.mem_of_head? hhead)
  split at hvalue
  · rename_i ho
    cases hvalue
    exact ⟨entry.2, ho ▸ hmem⟩
  · cases hvalue

theorem target?_of_action? {verb : Verb} {action : Action} {target : Target}
    (h : action? verb options operands = some action) (htarget : action.target? = some target) :
    target.overwrite = Options.has options .force := by
  simp only [action?, Option.bind_eq_bind, Option.bind_eq_some_iff] at h
  obtain ⟨source, -, given, hgiven, haction⟩ := h
  have hsome : given = some target := by
    split at haction <;> cases haction <;> first | exact htarget | cases htarget
  subst hsome
  unfold Options.target? at hgiven
  split at hgiven
  · split at hgiven <;> cases hgiven
  · cases hgiven
    rfl

/-- **Files are replaced only on request**, which is made by the argument `--force`. -/
theorem Request.force_mem_of_parse? {r : Request} {target : Target} (h : parse? args = some r)
    (htarget : r.action.target? = some target) (hoverwrite : target.overwrite = true) :
    forceArg ∈ args := by
  simp only [parse?, Option.bind_eq_bind, Option.bind_eq_some_iff] at h
  obtain ⟨parts, hsplit, hrequest⟩ := h
  split at hrequest
  · rw [Option.bind_eq_some_iff] at hrequest
    obtain ⟨action, haction, hr⟩ := hrequest
    cases hr
    rw [target?_of_action? haction htarget] at hoverwrite
    obtain ⟨value, hmem⟩ := Options.mem_of_has hoverwrite
    exact force_mem_of_split? hsplit hmem
  · cases hrequest

end Force

/-! ## What a request comes to -/

variable {d d' : Disk} {action : Action} {target : Target} {w : World}

/-- The world that an action saves, and where. -/
inductive Saves (d : Disk) : Action → Target → World → Prop where
  | opened {source : Source} {target : Target} {w : World} :
    openLevel d source = .ok w → Saves d (.save source target) target w
  | edited {source : Source} {resize : Option (List Char)} {strokes : List (List Char)}
      {target : Target} {w : World} :
    editLevel d source resize strokes = .ok w →
      Saves d (.edit source resize strokes (some target)) target w
  | shared {code : List Char} {share : ShareCode} {target : Target} {w : World} :
    ShareCode.decode code = .ok share → World.ofBytes share.bytes = .ok w →
      Saves d (.unshare code (some target)) target w

theorem Saves.target?_eq (h : Saves d action target w) : action.target? = some target := by
  cases h <;> rfl

theorem checkedReply_eq_ok {given : Option Target} {r : Reply} (h : checkedReply w given = .ok r) :
    r = levelReply w given := by
  cases given with
  | none =>
    cases h
    rfl
  | some target =>
    rw [checkedReply, bind_eq_ok_iff] at h
    obtain ⟨-, -, hr⟩ := h
    cases hr
    rfl

/-- **What a request comes to**: the world that it saves, if it has a target, and otherwise a
text. -/
theorem reply_eq_ok {r : Reply} (h : reply d action = .ok r) :
    (∃ target w, Saves d action target w ∧ r = .level w target) ∨
      action.target? = none ∧ ∃ text, r = .text text := by
  cases action with
  | play source moves =>
    simp only [reply, bind_eq_ok_iff] at h
    obtain ⟨w, -, commands, -, hr⟩ := h
    cases hr
    exact .inr ⟨rfl, _, rfl⟩
  | display source =>
    rw [reply, bind_eq_ok_iff] at h
    obtain ⟨w, -, hr⟩ := h
    cases hr
    exact .inr ⟨rfl, _, rfl⟩
  | save source target =>
    rw [reply, bind_eq_ok_iff] at h
    obtain ⟨w, hopen, hr⟩ := h
    exact .inl ⟨target, w, .opened hopen, checkedReply_eq_ok hr⟩
  | share source =>
    rw [reply, bind_eq_ok_iff] at h
    obtain ⟨w, -, hr⟩ := h
    cases hr
    exact .inr ⟨rfl, _, rfl⟩
  | unshare code target =>
    simp only [reply, bind_eq_ok_iff, mapError_eq_ok_iff] at h
    obtain ⟨share, hshare, w, hw, hr⟩ := h
    cases hr
    cases target with
    | none => exact .inr ⟨rfl, _, rfl⟩
    | some target => exact .inl ⟨target, w, .shared hshare hw, rfl⟩
  | validate source =>
    simp only [reply, bind_eq_ok_iff] at h
    obtain ⟨w, -, -, -, hr⟩ := h
    cases hr
    exact .inr ⟨rfl, _, rfl⟩
  | levels =>
    rw [reply, bind_eq_ok_iff] at h
    obtain ⟨text, -, hr⟩ := h
    cases hr
    exact .inr ⟨rfl, _, rfl⟩
  | edit source resize strokes target =>
    rw [reply, bind_eq_ok_iff] at h
    obtain ⟨w, hedit, hr⟩ := h
    have hlevel := checkedReply_eq_ok hr
    cases target with
    | none => exact .inr ⟨rfl, _, hlevel⟩
    | some target => exact .inl ⟨target, w, .edited hedit, hlevel⟩

/-! ## Command lines -/

section Run

variable {r : Request} {outcome : Outcome} {printed : String}

theorem Outcome.eq_printed_of_code_eq_zero (h : outcome.code = 0) :
    outcome = .printed outcome.output := by
  cases outcome with
  | printed text => rfl
  | failed failure before => cases h
  | misused => cases h

/-- A request that fails has printed nothing.  It has not touched the disk, unless it failed in
saving: then directories can have been made for the file. -/
theorem Request.grown_of_run (h : r.run d = (outcome, d')) (hcode : outcome.code ≠ 0) :
    outcome.output = "" ∧
      (d' = d ∨ d.Grown d' ∧ ∃ e, outcome = .failed (.save e) "") := by
  obtain ⟨failure, rfl, rfl | ⟨path, bytes, overwrite, e, hsave, rfl⟩⟩ :=
    Request.exists_failed_of_run h hcode
  · exact ⟨rfl, .inl rfl⟩
  · exact ⟨rfl, .inr ⟨LevelFile.grown_of_save_eq_error hsave, e, rfl⟩⟩

/-- A request that succeeds has not touched the disk if it has no target.  Otherwise it has written
the world that it saves to the file that it names. -/
theorem Request.run_eq_printed (h : r.run d = (.printed printed, d')) :
    ∃ settings, Settings.load d r.config = .ok settings ∧
      (r.action.target? = none ∧ d' = d ∨
        ∃ target w l, Saves d r.action target w ∧
          let path := (settings.resolve target.path).withLevelExtension
          printed = "saved " ++ path.string ++ "\n" ∧ d.Written d' path l w.bytes ∧
            (d.file? l ≠ none → target.overwrite = true)) := by
  obtain ⟨settings, given, hsettings, hreply, hgive⟩ := Request.exists_reply_of_run h
  refine ⟨settings, hsettings, ?_⟩
  rcases reply_eq_ok hreply with ⟨target, w, hsaves, rfl⟩ | ⟨htarget, text, rfl⟩
  · rw [Reply.give_level, outcome_saveLevel] at hgive
    split at hgive
    · cases hgive
    · rename_i hsave
      cases hgive
      obtain ⟨rfl, l, hwritten, hoverwrite⟩ := LevelFile.exists_written_of_save hsave
      exact .inr ⟨target, w, l, hsaves, rfl, hwritten, hoverwrite⟩
  · rw [Reply.give_text, outcome_print] at hgive
    cases hgive
    exact .inl ⟨htarget, rfl⟩

/-- **A command line that fails leaves all files as they were, and one that succeeds changes at most
the file it names.**

* Where the exit code is not zero, nothing is printed and all files are as before.  The disk is as
  before as a whole, unless the file to be saved was refused: then there can be directories that
  were made for it.
* Where it is zero, and no level is saved, the disk is as before.
* Where it is zero, and a level is saved, the path of its file is printed, and the file at this path
  is the only one that differs.  It holds the level text of the world that was opened, edited or
  read from a share code, and it was there before only if `--force` was given. -/
theorem run_confined (d : Disk) (args : List String) :
    let outcome := (run d args).1
    let after := (run d args).2
    (outcome.code ≠ 0 →
      outcome.output = "" ∧ (∀ l, after.file? l = d.file? l) ∧
        (after = d ∨ d.Grown after ∧ ∃ e, outcome = .failed (.save e) "")) ∧
    (outcome.code = 0 →
      ∃ r settings, Request.parse? (args.map String.toList) = some r ∧
        Settings.load d r.config = .ok settings ∧
        (r.action.target? = none ∧ after = d ∨
          ∃ target w l, Saves d r.action target w ∧
            let path := (settings.resolve target.path).withLevelExtension
            outcome.output = "saved " ++ path.string ++ "\n" ∧ d.Written after path l w.bytes ∧
              (d.file? l ≠ none → "--force" ∈ args))) := by
  intro outcome after
  have hrun : run d args = (outcome, after) := rfl
  clear_value outcome after
  rw [run] at hrun
  split at hrun
  · cases hrun
    exact ⟨fun _ ↦ ⟨rfl, fun _ ↦ rfl, .inl rfl⟩, fun hcode ↦ absurd hcode (by decide)⟩
  · rename_i r hparse
    refine ⟨fun hcode ↦ ?_, fun hcode ↦ ?_⟩
    · obtain ⟨houtput, hkept⟩ := Request.grown_of_run hrun hcode
      refine ⟨houtput, ?_, hkept⟩
      rcases hkept with rfl | ⟨hgrown, -⟩
      · exact fun _ ↦ rfl
      · exact hgrown.file?_eq
    · rw [Outcome.eq_printed_of_code_eq_zero hcode] at hrun
      obtain ⟨settings, hsettings, hleft⟩ := Request.run_eq_printed hrun
      refine ⟨r, settings, hparse, hsettings, hleft.imp_right ?_⟩
      rintro ⟨target, w, l, hsaves, hprinted, hwritten, hoverwrite⟩
      refine ⟨target, w, l, hsaves, hprinted, hwritten, fun hfile ↦ ?_⟩
      have hforce := Request.force_mem_of_parse? hparse hsaves.target?_eq (hoverwrite hfile)
      obtain ⟨arg, hmem, harg⟩ := List.mem_map.mp hforce
      rwa [String.toList_inj.mp harg] at hmem

/-- An edit of a file replaces it if that is asked for, and leaves it as it was if the last of its
strokes is not understood. -/
theorem run_confined_edit :
    let old := Path.ofString "old.wmgame"
    let place : Location := [old.chars]
    let d := Disk.ofFiles [(old, [77, 10])]
    let edit := ["edit", "--file", "old.wmgame", "--resize", "2x1", "--paint", "box:1,0"]
    let good := edit ++ ["--out", "old", "--force"]
    let bad := edit ++ ["--paint", "hill:0,0", "--out", "old", "--force"]
    ((run d good).1.code = 0 ∧ d.file? place ≠ none ∧
        ∃ w, editLevel d (.file old) (some "2x1".toList) ["box:1,0".toList] = .ok w ∧
          (run d good).1.output = "saved old.wmgame\n" ∧
          d.Written (run d good).2 old place w.bytes ∧ "--force" ∈ good) ∧
      (run d bad).1.code ≠ 0 ∧ (run d bad).1.output = "" ∧
        ∀ l, (run d bad).2.file? l = d.file? l := by
  intro old place d edit good bad
  have hgood : (run d good).1.code = 0 := by decide +kernel
  have hbad : (run d bad).1.code ≠ 0 := by decide +kernel
  have hplace : d.file? place ≠ none := by decide +kernel
  obtain ⟨hempty, hfiles, -⟩ := (run_confined d bad).1 hbad
  refine ⟨⟨hgood, hplace, ?_⟩, hbad, hempty, hfiles⟩
  obtain ⟨r, settings, hparse, hsettings, hleft⟩ := (run_confined d good).2 hgood
  have hrequest : Request.parse? (good.map String.toList) = some ⟨none, .edit (.file old)
      (some "2x1".toList) ["box:1,0".toList] (some ⟨⟨"old".toList⟩, true, false⟩)⟩ := by
    decide +kernel
  cases hparse.symm.trans hrequest
  cases hsettings
  rcases hleft with ⟨htarget, -⟩ | ⟨target, w, l, hsaves, hprinted, hwritten, hforce⟩
  · cases htarget
  · cases hsaves with
    | edited hedit =>
      have hl : (run d good).2.locate old = .ok place := by decide +kernel
      cases hwritten.locate_eq.symm.trans hl
      exact ⟨w, hedit, hprinted, hwritten, hforce hplace⟩

end Run

end MolePuzzle.Cli
