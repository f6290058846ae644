import MolePuzzle.Proofs.Reachable

/-!
# When a level is solved

A world remembers whether all targets were covered when it last looked, and tells that the level is
solved when a play covers them and this is new.  It looks again after whatever may move a box or a
target (`World.won_respond`), so what it remembers is right (`World.Judged`).  The exception is the
world whose field never had a size: it has no targets yet has not looked, but there is nothing in it
to play either (`World.Judged.play?_eq_none`).

`World.solved_run` puts together what this means for the player.  The news comes with a play, right
after the move that it tells of, and only when the last uncovered target has just been covered.
-/

set_option autoImplicit false

namespace MolePuzzle.World

variable {v w : World}

/-! ## What the world remembers -/

/-- After an input the world has just looked at its targets, or it has not changed in anything that
it would have seen. -/
theorem won_respond (w : World) (input : Input) :
    let v := (w.respond input).1
    v.won = v.covered ∨
      (v.field.size = w.field.size ∧ v.won = w.won ∧ v.covered = w.covered) := by
  cases input with
  | load level =>
    rcases w.respond_load_cases level with hstay | ⟨l, -, hinstall⟩
    · rw [hstay]
      exact .inr ⟨rfl, rfl, rfl⟩
    · rw [hinstall]
      exact .inl rfl
  | command c =>
    rw [respond]
    induction c using Command.casesPlay with
    | play p =>
      rcases w.apply_play_cases p with
        h | ⟨_, _, -, -, h⟩ | ⟨_, _, -, -, h⟩ | ⟨_, _, -, -, h⟩ <;> rw [h]
      · exact .inr ⟨rfl, rfl, rfl⟩
      · exact .inl rfl
      · exact .inl rfl
      · exact .inl rfl
    | resize s =>
      rw [apply, resize_eq]
      exact .inl rfl
    | setTerrain c terrain =>
      refine .inr ⟨w.size_setTerrain c terrain, ?_, ?_⟩
      · rcases w.setTerrain_cases c terrain with h | h <;> rw [apply, h]
        rfl
      · rw [apply, Layout.covered, Layout.covered, targets_setTerrain, actors_setTerrain]
    | setMole c =>
      rw [apply, setMole_eq]
      exact .inr ⟨rfl, rfl, rfl⟩
    | setBox c present => exact .inl rfl
    | setTarget c present => exact .inl rfl

/-- Once the world has looked at its targets, what it remembers stays right. -/
theorem won_eq_respond (h : w.won = w.covered) (input : Input) :
    (w.respond input).1.won = (w.respond input).1.covered := by
  rcases w.won_respond input with hlooked | ⟨-, hwon, hcovered⟩
  · exact hlooked
  · rw [hwon, hcovered, h]

/-- A world that remembers that it is won has its targets covered, after any run. -/
theorem covered_of_won_run (inputs : List Input) :
    (run {} inputs).1.won = true → (run {} inputs).1.covered = true := by
  refine run_induction (P := fun w ↦ w.won = true → w.covered = true) (fun w input h ↦ ?_) ?_ inputs
  · rcases w.won_respond input with hlooked | ⟨-, hwon, hcovered⟩
    · rw [hlooked]
      exact id
    · rwa [hwon, hcovered]
  · exact fun hwon ↦ Bool.noConfusion hwon

/-- While the field has no size, no moment can be gone to. -/
def Unplayed (w : World) : Prop := w.field.size = {} → w.history = {} ∨ ∃ a, w.history = .start a

theorem Unplayed.edited (h : w.Unplayed) (hedited : w.Edited v)
    (hsize : v.field.size = w.field.size) : v.Unplayed := by
  intro hempty
  rcases hedited with ⟨hhistory, -, -⟩ | hstart
  · rw [hhistory]
    exact h (hsize ▸ hempty)
  · exact .inr ⟨_, hstart⟩

/-- What the world remembers of its targets is so, once the field has a size. -/
structure Judged (w : World) : Prop where
  charted : w.Charted
  unplayed : w.Unplayed
  won_eq : w.field.size ≠ {} → w.won = w.covered

theorem judged_empty : Judged {} where
  charted := charted_empty
  unplayed _ := .inl rfl
  won_eq hsize := absurd rfl hsize

namespace Judged

/-- While the field has no size, nothing can be played. -/
theorem play?_eq_none (h : w.Judged) (hsize : w.field.size = {}) (p : Play) : w.play? p = none := by
  rw [Option.eq_none_iff_forall_ne_some]
  intro r hr
  rcases play?_cases hr with ⟨d, q, -, hplan, -⟩ | ⟨a, history, -, hundo, -⟩ |
    ⟨a, history, -, hredo, -⟩
  · obtain ⟨_, next, -, -, hfloor, -⟩ := plan?_eq_some_iff.mp hplan
    have hnext := h.charted.floor_mem next hfloor
    rw [hsize] at hnext
    exact absurd hnext.1 UInt32.not_lt_zero
  · rcases h.unplayed hsize with hhistory | ⟨b, hhistory⟩ <;> rw [hhistory] at hundo <;>
      cases hundo
  · rcases h.unplayed hsize with hhistory | ⟨b, hhistory⟩ <;> rw [hhistory] at hredo
    · cases hredo
    · rw [History.start_eq_ofParts, History.redo?_ofParts_nil] at hredo
      cases hredo

theorem size_ne_of_play? (h : w.Judged) {p : Play} {r : World × List Event}
    (hp : w.play? p = some r) : w.field.size ≠ {} := by
  intro hsize
  rw [h.play?_eq_none hsize p] at hp
  cases hp

/-- No input makes moments to go to while the field has no size. -/
theorem unplayed_respond (h : w.Judged) (input : Input) : (w.respond input).1.Unplayed := by
  cases input with
  | load level =>
    rcases w.respond_load_cases level with hstay | ⟨l, -, hinstall⟩
    · rw [hstay]
      exact h.unplayed
    · rw [hinstall]
      exact fun _ ↦ .inr ⟨_, rfl⟩
  | command c =>
    rw [World.respond]
    induction c using Command.casesPlay with
    | play p =>
      intro hempty
      obtain ⟨hfield, -⟩ := w.play_frame p
      rw [hfield] at hempty
      rw [apply_play, h.play?_eq_none hempty p]
      exact h.unplayed hempty
    | resize s =>
      intro hempty
      rw [apply, field_resize] at hempty
      rw [apply, history_resize]
      split
      · rename_i hsize
        exact h.unplayed (hsize.trans hempty)
      · exact .inr ⟨_, rfl⟩
    | setTerrain c terrain =>
      exact h.unplayed.edited (edited_setTerrain w c terrain) (w.size_setTerrain c terrain)
    | setMole c =>
      exact h.unplayed.edited (edited_setMole w c) (by rw [apply, field_setMole])
    | setBox c present =>
      exact h.unplayed.edited (edited_setBox w c present) (by rw [apply, field_setBox])
    | setTarget c present => exact h.unplayed.edited (edited_setTarget w c present) rfl

/-- **The world keeps right what it remembers of its targets**, whatever it is asked for. -/
theorem respond (h : w.Judged) (input : Input) : (w.respond input).1.Judged where
  charted := h.charted.respond input
  unplayed := h.unplayed_respond input
  won_eq hsize := by
    rcases w.won_respond input with hlooked | ⟨hsame, hwon, hcovered⟩
    · exact hlooked
    · rw [hwon, hcovered]
      exact h.won_eq (hsame ▸ hsize)

theorem play (h : w.Judged) (p : Play) : (w.apply p.command).1.Judged :=
  h.respond (.command p.command)

end Judged

theorem judged_run (inputs : List Input) : (run {} inputs).1.Judged :=
  run_induction (P := Judged) (fun _ input h ↦ h.respond input) judged_empty inputs

/-! ## The news that a level is solved -/

/-- A play that is allowed tells of a move, and then of the solved level if that is news. -/
theorem play?_events {p : Play} {r : World × List Event} (h : w.play? p = some r) : ∃ move,
    r.2 = .moleMoved move :: if r.1.covered && !w.won then [.solved r.1.steps] else [] := by
  rcases play?_cases h with ⟨_, _, -, -, rfl⟩ | ⟨_, _, -, -, rfl⟩ | ⟨_, _, -, -, rfl⟩ <;>
    exact ⟨_, rfl⟩

/-- Edits do not tell of solved levels. -/
theorem exists_play_of_solved_mem {c : Command} {n : Nat} (hmem : .solved n ∈ (w.apply c).2) :
    ∃ p : Play, c = p.command := by
  induction c using Command.casesPlay with
  | play p => exact ⟨p, rfl⟩
  | resize s =>
    rw [apply, resize] at hmem
    split at hmem <;> simp at hmem
  | _ => cases hmem

theorem solved_not_mem_install (w : World) (l : Layout) (n : Nat) :
    .solved n ∉ (w.install l).2 := by
  rw [install]
  split <;> simp

/-- The targets are covered where all of them hold boxes. -/
theorem covered_eq_false_iff : w.covered = false ↔ ∃ c ∈ w.targets, c ∉ w.actors.boxes := by
  rw [← Bool.not_eq_true, Layout.covered_iff]
  push Not
  rfl

/-- A play tells that the level is solved when it has just become so. -/
theorem Judged.solved_mem_play_iff (h : w.Judged) (p : Play) (n : Nat) :
    .solved n ∈ (w.apply p.command).2 ↔ (w.play? p).isSome = true ∧ w.covered = false ∧
      (w.apply p.command).1.covered = true ∧ n = (w.apply p.command).1.steps := by
  rw [apply_play]
  cases hp : w.play? p with
  | none => simp
  | some r =>
    obtain ⟨move, hevents⟩ := play?_events hp
    rw [Option.getD_some, hevents, h.won_eq (h.size_ne_of_play? hp)]
    cases r.1.covered <;> cases w.covered <;> simp

/-- A command tells that the level is solved only if it is a play. -/
theorem Judged.solved_mem_apply_iff (h : w.Judged) (c : Command) (n : Nat) :
    .solved n ∈ (w.apply c).2 ↔ (∃ p : Play, c = p.command ∧ (w.play? p).isSome = true) ∧
      w.covered = false ∧ (w.apply c).1.covered = true ∧ n = (w.apply c).1.steps := by
  constructor
  · intro hmem
    obtain ⟨p, rfl⟩ := exists_play_of_solved_mem hmem
    obtain ⟨hallowed, hrest⟩ := (h.solved_mem_play_iff p n).mp hmem
    exact ⟨⟨p, rfl, hallowed⟩, hrest⟩
  · rintro ⟨⟨p, rfl, hallowed⟩, hrest⟩
    exact (h.solved_mem_play_iff p n).mpr ⟨hallowed, hrest⟩

/-- So does an input. -/
theorem Judged.covered_of_solved_mem_respond (h : w.Judged) {input : Input} {n : Nat}
    (hmem : .solved n ∈ (w.respond input).2) :
    w.covered = false ∧ (w.respond input).1.covered = true := by
  cases input with
  | load level =>
    rcases w.respond_load_cases level with hstay | ⟨l, -, hinstall⟩
    · rw [hstay] at hmem
      cases hmem
    · rw [hinstall] at hmem
      exact absurd hmem (w.solved_not_mem_install l n)
  | command c =>
    obtain ⟨-, hbefore, hafter, -⟩ := (h.solved_mem_apply_iff c n).mp hmem
    exact ⟨hbefore, hafter⟩

/-- The news comes once, right after the move that it tells of. -/
theorem events_of_solved_mem {c : Command} {n : Nat} (hmem : .solved n ∈ (w.apply c).2) :
    ∃ move, (w.apply c).2 = [.moleMoved move, .solved n] := by
  obtain ⟨p, rfl⟩ := exists_play_of_solved_mem hmem
  rw [apply_play] at hmem ⊢
  cases hp : w.play? p with
  | none =>
    rw [hp] at hmem
    cases hmem
  | some r =>
    obtain ⟨move, hevents⟩ := play?_events hp
    rw [hp, Option.getD_some, hevents] at hmem
    refine ⟨move, ?_⟩
    rw [Option.getD_some, hevents]
    cases hnews : r.1.covered && !w.won with
    | false => simp [hnews] at hmem
    | true =>
      obtain rfl : n = r.1.steps := by simpa [hnews] using hmem
      rfl

/-! ## Levels without targets -/

theorem targets_apply_eq_nil (h : w.targets = []) {c : Command}
    (hc : ∀ e present, c ≠ .setTarget e present) : (w.apply c).1.targets = [] := by
  induction c using Command.casesPlay with
  | play p =>
    obtain ⟨-, -, htargets, -⟩ := w.play_frame p
    rw [htargets, h]
  | resize s => rw [apply, targets_resize, h, List.filter_nil]
  | setTerrain c terrain => rw [apply, targets_setTerrain, h]
  | setMole c => rw [apply, targets_setMole, h]
  | setBox c present => rw [apply, targets_setBox, h]
  | setTarget c present => exact absurd rfl (hc c present)

/-- A level without targets is never told to be solved, unless it is given some. -/
theorem Judged.solved_not_mem_applyAll (h : w.Judged) (htargets : w.targets = [])
    {commands : List Command} (hcommands : ∀ c ∈ commands, ∀ e present, c ≠ .setTarget e present)
    (n : Nat) : .solved n ∉ (w.applyAll commands).2 := by
  induction commands generalizing w with
  | nil => exact List.not_mem_nil
  | cons c rest ih =>
    obtain ⟨hc, hrest⟩ := List.forall_mem_cons.mp hcommands
    intro hmem
    rcases List.mem_append.mp hmem with hfirst | hlater
    · obtain ⟨-, huncovered, -⟩ := (h.solved_mem_apply_iff c n).mp hfirst
      obtain ⟨e, he, -⟩ := covered_eq_false_iff.mp huncovered
      rw [htargets] at he
      cases he
    · exact ih (h.respond (.command c)) (targets_apply_eq_nil htargets hc) hrest hlater

/-! ## The whole story -/

/-- **A level is told to be solved when its last target has been covered.**  After any commands and
levels:

* once the field has a size, the world remembers that it is won exactly if all targets hold boxes;
* a command tells that the level is solved, at the count of steps it leads to, exactly if it is a
  play that is allowed, a target was uncovered before and none is after, and then it tells so once,
  right after the move;
* between two inputs that tell so there is a time with an uncovered target;
* as long as the targets of a level without any are not edited, none is told to be solved. -/
theorem solved_run (inputs : List Input) :
    let w := (run {} inputs).1
    (w.field.size ≠ {} → (w.won = true ↔ ∀ c ∈ w.targets, c ∈ w.actors.boxes)) ∧
      (∀ command n,
        let v := (w.apply command).1
        (.solved n ∈ (w.apply command).2 ↔
          (∃ p : Play, command = p.command ∧ (w.play? p).isSome = true) ∧
            (∃ c ∈ w.targets, c ∉ w.actors.boxes) ∧ (∀ c ∈ v.targets, c ∈ v.actors.boxes) ∧
            n = v.steps) ∧
        (.solved n ∈ (w.apply command).2 →
          ∃ move, (w.apply command).2 = [.moleMoved move, .solved n])) ∧
      (∀ first mid last n n', .solved n ∈ (w.respond first).2 →
        .solved n' ∈ ((w.run (first :: mid)).1.respond last).2 →
        ∃ m, m <+: mid ∧ m ≠ [] ∧ ∃ c ∈ (w.run (first :: m)).1.targets,
          c ∉ (w.run (first :: m)).1.actors.boxes) ∧
      (w.targets = [] → ∀ commands : List Command,
        (∀ c ∈ commands, ∀ e present, c ≠ .setTarget e present) →
        ∀ n, .solved n ∉ (w.applyAll commands).2) := by
  intro w
  have h : w.Judged := judged_run inputs
  refine ⟨fun hsize ↦ ?_, fun command n ↦ ⟨?_, events_of_solved_mem⟩, ?_,
    fun htargets commands hcommands n ↦ h.solved_not_mem_applyAll htargets hcommands n⟩
  · rw [h.won_eq hsize, Layout.covered_iff]
  · rw [h.solved_mem_apply_iff, covered_eq_false_iff, Layout.covered_iff]
  · intro first mid last n n' hfirst hlast
    have hcovered := (h.covered_of_solved_mem_respond hfirst).2
    have hmid : (w.run (first :: mid)).1.Judged :=
      run_induction (P := Judged) (fun _ input h ↦ h.respond input) h (first :: mid)
    have huncovered := (hmid.covered_of_solved_mem_respond hlast).1
    refine ⟨mid, List.prefix_refl mid, ?_, covered_eq_false_iff.mp huncovered⟩
    rintro rfl
    exact Bool.noConfusion (huncovered.symm.trans hcovered)

/-- A level is solved, the push is taken back, and it is solved again. -/
theorem solved_run_again :
    let inputs : List Input := [.load (.rows [['M', 'B', 'T']])]
    let w := (run {} inputs).1
    let first : Input := .command (.move .right)
    let mid : List Input := [.command .undo]
    w.field.size ≠ {} ∧ (w.won = true ↔ ∀ c ∈ w.targets, c ∈ w.actors.boxes) ∧
      .solved 1 ∈ (w.respond first).2 ∧
      .solved 1 ∈ ((w.run (first :: mid)).1.respond (.command .redo)).2 ∧
      (∃ m, m <+: mid ∧ m ≠ [] ∧ ∃ c ∈ (w.run (first :: m)).1.targets,
        c ∉ (w.run (first :: m)).1.actors.boxes) ∧
      ∃ move, (w.apply (.move .right)).2 = [.moleMoved move, .solved 1] := by
  intro inputs w first mid
  obtain ⟨hwon, hcommand, hbetween, -⟩ := solved_run inputs
  have hsize : w.field.size ≠ {} := by decide
  have hfirst : .solved 1 ∈ (w.respond first).2 := by decide
  have hlast : .solved 1 ∈ ((w.run (first :: mid)).1.respond (.command .redo)).2 := by decide
  exact ⟨hsize, hwon hsize, hfirst, hlast, hbetween first mid _ _ _ hfirst hlast,
    (hcommand _ _).2 hfirst⟩

end MolePuzzle.World
