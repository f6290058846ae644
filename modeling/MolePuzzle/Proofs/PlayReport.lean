import Mathlib.Order.Bounds.Basic
import MolePuzzle.Proofs.MoveScript
import MolePuzzle.Proofs.Opening
import MolePuzzle.Proofs.Winning

/-!
# What is reported of a game

A game on the command line is reported by the level at its end, the counters, and a line on how it
ended.  The line comes from two sources: whether the world remembers at the end that it is won, and
the count of steps that a listener kept of the last news of a solved level.

Both are what they seem to be.  Among the commands of a script, those that tell that the level is
solved are those that cover the last uncovered target (`World.SolvedBy`), so what the listener keeps
belongs to the latest of these (`Cli.playAll_spec`).  A game that ends solved without one was solved
all along (`World.covered_afterFirst`).  `Cli.run_play` puts together what this means for the three
endings.
-/

set_option autoImplicit false

namespace MolePuzzle

namespace World

variable {w : World} {commands : List Command} {k : Nat}

/-! ## Solving commands -/

/-- The world after the first commands. -/
def afterFirst (w : World) (commands : List Command) (k : Nat) : World :=
  (w.applyAll (commands.take k)).1

/-- The command with this number, counted from zero, covers the last uncovered target. -/
def SolvedBy (w : World) (commands : List Command) (k : Nat) : Prop :=
  k < commands.length ∧ (w.afterFirst commands k).covered = false ∧
    (w.afterFirst commands (k + 1)).covered = true

theorem afterFirst_length (w : World) (commands : List Command) :
    w.afterFirst commands commands.length = (w.applyAll commands).1 := by
  rw [afterFirst, List.take_length]

theorem afterFirst_concat_of_le (h : k ≤ commands.length) (c : Command) :
    w.afterFirst (commands ++ [c]) k = w.afterFirst commands k := by
  rw [afterFirst, afterFirst, List.take_append_of_le_length h]

theorem afterFirst_concat_length (w : World) (commands : List Command) (c : Command) :
    w.afterFirst (commands ++ [c]) (commands.length + 1) =
      ((w.applyAll commands).1.apply c).1 := by
  rw [← fst_applyAll_concat, ← afterFirst_length, List.length_append, List.length_singleton]

/-- One more command is the latest to solve the level, or those that do stay the same. -/
theorem solvedBy_concat_iff {c : Command} : w.SolvedBy (commands ++ [c]) k ↔
    w.SolvedBy commands k ∨ k = commands.length ∧ (w.applyAll commands).1.covered = false ∧
      ((w.applyAll commands).1.apply c).1.covered = true := by
  rw [SolvedBy, SolvedBy, List.length_append, List.length_singleton]
  rcases Nat.lt_trichotomy k commands.length with hk | rfl | hk
  · rw [afterFirst_concat_of_le hk.le, afterFirst_concat_of_le hk]
    simp [hk, hk.ne, Nat.lt_succ_of_lt hk]
  · rw [afterFirst_concat_of_le le_rfl, afterFirst_length, afterFirst_concat_length]
    simp
  · simp [hk.ne', hk.le.not_gt, Nat.not_lt.mpr hk]

/-- What is solved at the end without a command that solves it has been solved all along.  The
induction is on the way back from the end. -/
theorem covered_afterFirst (hnone : ∀ k, ¬ w.SolvedBy commands k)
    (hlast : (w.applyAll commands).1.covered = true) (hk : k ≤ commands.length) :
    (w.afterFirst commands k).covered = true := by
  induction hk using Nat.decreasingInduction with
  | self => rwa [afterFirst_length]
  | of_succ k hk ih =>
    rw [← Bool.not_eq_false]
    exact fun hbefore ↦ hnone k ⟨hk, hbefore, ih⟩

/-- The count of steps belongs to the latest command that solves the level, and there is none if no
command does. -/
def LastSolved (w : World) (commands : List Command) : Option Nat → Prop
  | none => ∀ k, ¬ w.SolvedBy commands k
  | some n => ∃ k, IsGreatest {k | w.SolvedBy commands k} k ∧
      n = (w.afterFirst commands (k + 1)).steps

/-- The count of steps is replaced when one more command solves the level. -/
theorem LastSolved.concat {solvedAt : Option Nat} (h : w.LastSolved commands solvedAt)
    (c : Command) :
    let last := (w.applyAll commands).1
    w.LastSolved (commands ++ [c])
      (if last.covered = false ∧ (last.apply c).1.covered = true then some (last.apply c).1.steps
        else solvedAt) := by
  intro last
  split
  · rename_i hsolves
    refine ⟨commands.length, ⟨solvedBy_concat_iff.mpr (.inr ⟨rfl, hsolves⟩), fun k hk ↦ ?_⟩, ?_⟩
    · have hlt := hk.1
      rw [List.length_append, List.length_singleton] at hlt
      exact Nat.le_of_lt_succ hlt
    · rw [afterFirst_concat_length]
  · rename_i hkeeps
    have hsame : ∀ k, w.SolvedBy (commands ++ [c]) k ↔ w.SolvedBy commands k := fun k ↦
      solvedBy_concat_iff.trans (or_iff_left fun hnew ↦ hkeeps hnew.2)
    cases solvedAt with
    | none => exact fun k hk ↦ h k ((hsame k).mp hk)
    | some n =>
      obtain ⟨k, hgreatest, hn⟩ := h
      refine ⟨k, ?_, ?_⟩
      · simpa only [hsame] using hgreatest
      · rw [hn, afterFirst_concat_of_le hgreatest.1.1]

end World

/-! ## What the listener keeps -/

namespace Cli

variable {w : World} {commands : List Command}

/-- **The listener hears of the commands that solve the level**, and keeps the count of steps they
lead to. -/
theorem run_dispatch_play (h : w.won = w.covered) (p : Play) (solvedAt : Option Nat) :
    let v := (w.apply p.command).1
    ((solvedNotifier.dispatch (w.apply p.command).2).run solvedAt).2 =
      if w.covered = false ∧ v.covered = true then some v.steps else solvedAt := by
  rw [World.apply_play]
  dsimp only
  cases hp : w.play? p with
  | none =>
    rw [Option.getD_none, if_neg fun hnews ↦ Bool.noConfusion (hnews.1.symm.trans hnews.2)]
    rfl
  | some r =>
    obtain ⟨move, hevents⟩ := World.play?_events hp
    rw [Option.getD_some, hevents, h]
    cases r.1.covered <;> cases w.covered <;> rfl

theorem playAll_concat (w : World) (solvedAt : Option Nat) (early : List Command) (c : Command) :
    let (v, kept) := playAll w solvedAt early
    playAll w solvedAt (early ++ [c]) =
      ((v.apply c).1, ((solvedNotifier.dispatch (v.apply c).2).run kept).2) := by
  induction early generalizing w solvedAt with
  | nil => rfl
  | cons first early ih => exact ih _ _

/-- **What is known at the end of a script**: the world as the commands leave it, with what it
remembers of its targets, and the count of steps at which it was last solved.  The induction is on
the script from its end, for it is the latest solving command that counts. -/
theorem playAll_spec (hwon : w.won = w.covered)
    (hplays : ∀ command ∈ commands, ∃ p : Play, command = p.command) :
    let (last, solvedAt) := playAll w none commands
    last = (w.applyAll commands).1 ∧ last.won = last.covered ∧ w.LastSolved commands solvedAt := by
  induction commands using List.reverseRecOn with
  | nil => exact ⟨rfl, hwon, fun k hk ↦ Nat.not_lt_zero k hk.1⟩
  | append_singleton early c ih =>
    obtain ⟨hearly, hc⟩ := List.forall_mem_append.mp hplays
    obtain ⟨p, rfl⟩ := hc c (List.mem_singleton_self c)
    obtain ⟨hlast, hwon, hsolved⟩ := ih hearly
    rw [playAll_concat]
    refine ⟨?_, World.won_eq_respond hwon (.command p.command), ?_⟩
    · rw [hlast, World.fst_applyAll_concat]
    · rw [run_dispatch_play hwon, hlast]
      exact hsolved.concat p.command

/-! ## How the game ended -/

theorem solved_in_inj {n m : Nat} :
    "solved in " ++ toString n ++ " steps\n" = "solved in " ++ toString m ++ " steps\n" ↔
      n = m := by
  rw [String.append_left_inj, String.append_right_inj, Nat.toString_eq_ofList_toDigits,
    Nat.toString_eq_ofList_toDigits, String.ofList_inj]
  refine ⟨fun hdigits ↦ ?_, congrArg _⟩
  rw [← Nat.ofDigitChars_ten_toDigits (n := n), hdigits, Nat.ofDigitChars_ten_toDigits]

theorem solved_in_ne_solved (n : Nat) : "solved in " ++ toString n ++ " steps\n" ≠ "solved\n" := by
  intro h
  simpa using congrArg String.toList h

theorem solved_in_ne_not_solved (n : Nat) :
    "solved in " ++ toString n ++ " steps\n" ≠ "not solved\n" := by
  intro h
  simpa using congrArg String.toList h

/-- **The last line tells how the game ended**: solved by a command, solved all along, or not
solved. -/
theorem verdict_spec {solvedAt : Option Nat} (hwon : (w.applyAll commands).1.won =
    (w.applyAll commands).1.covered) (hsolved : w.LastSolved commands solvedAt) :
    let last := (w.applyAll commands).1
    (∀ n, verdict last solvedAt = "solved in " ++ toString n ++ " steps\n" ↔
        last.covered = true ∧ ∃ k, IsGreatest {k | w.SolvedBy commands k} k ∧
          n = (w.afterFirst commands (k + 1)).steps) ∧
      (verdict last solvedAt = "solved\n" ↔
        ∀ k ≤ commands.length, (w.afterFirst commands k).covered = true) ∧
      (verdict last solvedAt = "not solved\n" ↔ last.covered = false) := by
  intro last
  have hend : w.afterFirst commands commands.length = last := w.afterFirst_length commands
  have hremembered : last.won = last.covered := hwon
  unfold verdict
  rw [hremembered]
  cases hcovered : last.covered with
  | false =>
    dsimp only
    refine ⟨fun n ↦ iff_of_false (solved_in_ne_not_solved n).symm ?_, iff_of_false (by decide) ?_,
      iff_of_true rfl rfl⟩
    · exact fun h ↦ Bool.noConfusion h.1
    · intro hall
      rw [← hend, hall _ le_rfl] at hcovered
      cases hcovered
  | true =>
    cases solvedAt with
    | none =>
      refine ⟨fun n ↦ iff_of_false (solved_in_ne_solved n).symm ?_, iff_of_true rfl ?_,
        iff_of_false (by decide) Bool.noConfusion⟩
      · rintro ⟨-, k, hgreatest, -⟩
        exact hsolved k hgreatest.1
      · exact fun k hk ↦ World.covered_afterFirst hsolved hcovered hk
    | some m =>
      obtain ⟨k, hgreatest, hm⟩ := hsolved
      refine ⟨fun n ↦ ?_, iff_of_false (solved_in_ne_solved m) ?_,
        iff_of_false (solved_in_ne_not_solved m) Bool.noConfusion⟩
      · refine solved_in_inj.trans ⟨?_, ?_⟩
        · rintro rfl
          exact ⟨rfl, k, hgreatest, hm⟩
        · rintro ⟨-, k', hgreatest', hn⟩
          rw [hm, hn, hgreatest.unique hgreatest']
      · intro hall
        obtain ⟨hk, hbefore, -⟩ := hgreatest.1
        exact Bool.noConfusion (hbefore.symm.trans (hall k hk.le))

/-- **A game is reported as it went.**  Let a command line ask for a script to be played on a level
that can be opened, and let the script be understood.  Then the level text at the end is printed,
the counts of steps and pushes at the end, and a line that says how the game ended:

* `solved in n steps` exactly if all targets are covered at the end and some command covered the
  last uncovered one, where the latest such command led to the count `n`;
* `solved` exactly if all targets were covered before the first command and after every one;
* `not solved` exactly if some target is not covered at the end. -/
theorem run_play {d : Disk} {args : List String} {config : Option Path} {source : Source}
    {script : List Char} {settings : Settings} {w : World} {commands : List Command}
    (hargs : Request.parse? (args.map String.toList) = some ⟨config, .play source script⟩)
    (hsettings : Settings.load d config = .ok settings) (hopen : openLevel d source = .ok w)
    (hscript : Script.moves script = .ok commands) :
    let last := (w.applyAll commands).1
    ∃ ending, run d args = (.printed (levelText last ++ "steps: " ++ toString last.steps ++
        ", pushes: " ++ toString last.pushes ++ "\n" ++ ending), d) ∧
      (∀ n, ending = "solved in " ++ toString n ++ " steps\n" ↔
        (∀ c ∈ last.targets, c ∈ last.actors.boxes) ∧
          ∃ k, IsGreatest {k | w.SolvedBy commands k} k ∧
            n = (w.afterFirst commands (k + 1)).steps) ∧
      (ending = "solved\n" ↔ ∀ k ≤ commands.length,
        ∀ c ∈ (w.afterFirst commands k).targets, c ∈ (w.afterFirst commands k).actors.boxes) ∧
      (ending = "not solved\n" ↔ ∃ c ∈ last.targets, c ∉ last.actors.boxes) := by
  intro last
  obtain ⟨hlast, hwon, hsolved⟩ :=
    playAll_spec (opened_of_openLevel hopen).won_eq (Script.exists_play_of_mem_moves hscript)
  have hreply : reply d (.play source script) = .ok (.text (playReport w commands)) := by
    rw [reply, bind_eq_ok_iff]
    refine ⟨w, hopen, ?_⟩
    rw [bind_eq_ok_iff]
    exact ⟨commands, mapError_eq_ok_iff.mpr hscript, rfl⟩
  rw [hlast] at hwon
  refine ⟨verdict last (playAll w none commands).2, ?_, ?_⟩
  · rw [run, hargs]
    dsimp only
    rw [run_of_reply_text hsettings hreply, playReport]
    dsimp only
    rw [hlast]
  · simpa only [Layout.covered_iff, World.covered_eq_false_iff] using verdict_spec hwon hsolved

/-- A level in a file is solved, the push is taken back, and it is solved once more. -/
theorem run_play_again :
    let level : List UInt8 := [70, 77, 66, 84, 10]
    let path := Path.ofString "row.wmgame"
    let d := Disk.ofFiles [(path, level)]
    let w := (World.run {} [.load (.bytes level)]).1.named "row"
    let args := ["play", "--file", "row.wmgame", "--moves", "Rz,LRR"]
    let commands : List Command :=
      [.move .right, .undo, .move .left, .move .right, .move .right]
    (Request.parse? (args.map String.toList) = some ⟨none, .play (.file path) "Rz,LRR".toList⟩ ∧
        Settings.load d none = .ok {} ∧ openLevel d (.file path) = .ok w ∧
        Script.moves "Rz,LRR".toList = .ok commands) ∧
      w.SolvedBy commands 0 ∧ IsGreatest {k | w.SolvedBy commands k} 4 ∧
      run d args = (.printed "FFMA\nsteps: 3, pushes: 1\nsolved in 3 steps\n", d) := by
  intro level path d w args commands
  have hargs : Request.parse? (args.map String.toList) =
      some ⟨none, .play (.file path) "Rz,LRR".toList⟩ := by decide +kernel
  have hopen : openLevel d (.file path) = .ok w := by decide +kernel
  have hscript : Script.moves "Rz,LRR".toList = .ok commands := by decide
  have hgreatest : IsGreatest {k | w.SolvedBy commands k} 4 :=
    ⟨⟨by decide, by decide, by decide⟩, fun k hk ↦ Nat.le_of_lt_succ hk.1⟩
  obtain ⟨ending, hrun, hsolved, -⟩ := run_play hargs rfl hopen hscript
  obtain rfl : ending = "solved in 3 steps\n" :=
    (hsolved 3).mpr ⟨by decide, 4, hgreatest, by decide⟩
  refine ⟨⟨hargs, rfl, hopen, hscript⟩, ⟨by decide, by decide, by decide⟩, hgreatest, ?_⟩
  rw [hrun]
  decide +kernel

end Cli

end MolePuzzle
