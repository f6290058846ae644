import MolePuzzle.Proofs.Contained

/-!
# What the counters count

The steps of a world are the moves made since its level was loaded, less those taken back, and those
made again; its pushes are the same for what changes the cells that hold boxes.  The counters cannot
say so by themselves, since they stop at zero and at the largest word.  `Account` keeps books of a
drive without such ends, and `World.counts_drive` says that the counters agree with it.

That no counter stops takes a bound from both sides.  An edit forgets moments but leaves the
counters alone, so after it they are no longer those of the moments that are remembered.  They are
at least as much: each remembered move has been counted as a step, and each of them that moved a box
as a push, so there is something to take off when it is taken back.  And the moves that can be made
again have been counted among the moves.  `World.Balanced` is the invariant that says this.
-/

set_option autoImplicit false

namespace MolePuzzle

/-! ## Keeping books of a drive -/

/-- What a play adds to a count. -/
def Play.worth : Play → Int
  | undo => -1
  | _ => 1

/-- How often each kind of play has been carried out. -/
structure Tally where
  moves : Nat := 0
  undos : Nat := 0
  redos : Nat := 0
  deriving DecidableEq, Repr

namespace Tally

/-- The tally with one more play. -/
def count (t : Tally) : Play → Tally
  | .move _ => { t with moves := t.moves + 1 }
  | .undo => { t with undos := t.undos + 1 }
  | .redo => { t with redos := t.redos + 1 }

/-- The moves in force: those made, less those taken back, and those made again. -/
def net (t : Tally) : Int := t.moves - t.undos + t.redos

theorem net_count (t : Tally) (p : Play) : (t.count p).net = t.net + p.worth := by
  cases p <;> simp only [count, net, Play.worth] <;> omega

end Tally

/-- The plays of a drive since its last level was loaded. -/
structure Account where
  /-- All that were allowed. -/
  plays : Tally := {}
  /-- Those that changed the cells that hold boxes. -/
  pushes : Tally := {}
  deriving DecidableEq, Repr

namespace Account

/-- The account with one more play, told whether the same cells hold boxes after it. -/
def count (t : Account) (p : Play) (same : Bool) : Account where
  plays := t.plays.count p
  pushes := if same then t.pushes else t.pushes.count p

/-- The account after an act in a world.  A level that is loaded starts it afresh, and edits do not
count. -/
def enter (t : Account) (w : World) : Act → Account
  | .play p => match w.play? p with
    | some r => t.count p (w.actors.sameBoxes r.1.actors)
    | none => t
  | .load level => match w.loadFrom level with
    | .ok _ => {}
    | .error _ => t
  | .click _ _ => t
  | .resize _ => t

/-- The account after acts that go on from a world. -/
def keep (t : Account) (w : World) : List Act → Account
  | [] => t
  | a :: rest => (t.enter w a).keep (w.act a).1 rest

/-- The account of a drive. -/
def ofDrive (acts : List Act) : Account := keep {} {} acts

theorem keep_concat (t : Account) (w : World) (early : List Act) (a : Act) :
    t.keep w (early ++ [a]) = (t.keep w early).enter (w.drive early).1 a := by
  induction early generalizing t w with
  | nil => rfl
  | cons first early ih => exact ih _ _

theorem net_pushes_count (t : Account) (p : Play) (same : Bool) :
    (t.count p same).pushes.net = t.pushes.net + if same then 0 else p.worth := by
  cases same <;> simp [count, Tally.net_count]

end Account

/-! ## Changes of the boxes -/

/-- The moments that differ from the next one in the cells that hold boxes. -/
def boxChanges : List Actors → Nat
  | a :: b :: rest => (if a.sameBoxes b then 0 else 1) + boxChanges (b :: rest)
  | _ => 0

theorem boxChanges_concat (past : List Actors) (a b : Actors) :
    boxChanges (past ++ [a] ++ [b]) =
      boxChanges (past ++ [a]) + if a.sameBoxes b then 0 else 1 := by
  induction past with
  | nil => simp [boxChanges]
  | cons first rest ih =>
    cases rest with
    | nil => simp [boxChanges]
    | cons second rest =>
      simp only [List.cons_append, boxChanges] at ih ⊢
      rw [ih, Nat.add_assoc]

theorem boxChanges_le (past : List Actors) (a : Actors) :
    boxChanges (past ++ [a]) ≤ past.length := by
  induction past using List.reverseRecOn generalizing a with
  | nil => exact Nat.le_refl 0
  | append_singleton early b ih =>
    have hearly := ih b
    rw [boxChanges_concat, List.length_append, List.length_singleton]
    split <;> omega

/-! ## The invariant -/

theorem countUp_of_lt {n : Nat} (h : n < maxCount) : countUp n = n + 1 := Nat.min_eq_left h

namespace World

variable {t t' : Account} {v w : World} {past future : List Actors} {a b : Actors} {p : Play}

/-- The counters agree with the account, and with what is remembered: there are steps and pushes to
take off for all moves that can be taken back, and moves enough for those that can be made again. -/
structure Balanced (t : Account) (w : World) (past future : List Actors) : Prop where
  history : w.history = .ofParts past w.actors future ∨ w.history = {} ∧ past = [] ∧ future = []
  steps_eq : (w.steps : Int) = t.plays.net
  pushes_eq : (w.pushes : Int) = t.pushes.net
  past_le : past.length ≤ w.steps
  boxChanges_le : boxChanges (past ++ [w.actors]) ≤ w.pushes
  /-- Of the steps that are forgotten, no more than all were pushes. -/
  pushes_le : w.pushes + past.length ≤ w.steps + boxChanges (past ++ [w.actors])
  future_le : w.steps + future.length ≤ t.plays.moves

namespace Balanced

theorem pushes_le_steps (h : Balanced t w past future) : w.pushes ≤ w.steps := by
  have hle := h.pushes_le
  have hchanges := MolePuzzle.boxChanges_le past w.actors
  omega

/-- A world without past and future is balanced if its counters are. -/
theorem of_start (hhistory : w.history = .start w.actors) (hsteps : (w.steps : Int) = t.plays.net)
    (hpushes : (w.pushes : Int) = t.pushes.net) (hle : w.pushes ≤ w.steps)
    (hmoves : w.steps ≤ t.plays.moves) : Balanced t w [] [] where
  history := .inl hhistory
  steps_eq := hsteps
  pushes_eq := hpushes
  past_le := Nat.zero_le _
  boxChanges_le := Nat.zero_le _
  pushes_le := hle
  future_le := hmoves

/-- **Going forth is counted**, whatever lies ahead then. -/
theorem forth {ahead : List Actors} (h : Balanced t w past future)
    (hplays : t'.plays.net = t.plays.net + 1)
    (hpushes : t'.pushes.net = t.pushes.net + if w.actors.sameBoxes b then 0 else 1)
    (hmoves : w.steps + 1 + ahead.length ≤ t'.plays.moves) (hfits : t'.plays.moves < UInt32.size) :
    Balanced t' (w.travel countUp b (.ofParts (past ++ [w.actors]) b ahead)).1
      (past ++ [w.actors]) ahead := by
  have hle := h.pushes_le_steps
  have hroom : w.steps < maxCount := by
    rw [UInt32.size] at hfits
    rw [maxCount]
    omega
  have hsteps : (w.travel countUp b (.ofParts (past ++ [w.actors]) b ahead)).1.steps =
      w.steps + 1 := countUp_of_lt hroom
  have hcount : (w.travel countUp b (.ofParts (past ++ [w.actors]) b ahead)).1.pushes =
      w.pushes + if w.actors.sameBoxes b then 0 else 1 := by
    simp only [travel, judge, countUp_of_lt (Nat.lt_of_le_of_lt hle hroom)]
    split <;> rfl
  have hchanges := boxChanges_concat past w.actors b
  have hsteps_eq := h.steps_eq
  have hpushes_eq := h.pushes_eq
  have hpast_le := h.past_le
  have hboxChanges_le := h.boxChanges_le
  have hpushes_le := h.pushes_le
  refine ⟨.inl rfl, ?_, ?_, ?_, ?_, ?_, ?_⟩
  · rw [hsteps, hplays]
    omega
  · rw [hcount, hpushes]
    split <;> omega
  · rw [hsteps, List.length_append, List.length_singleton]
    omega
  · rw [hcount]
    show boxChanges (past ++ [w.actors] ++ [b]) ≤ _
    omega
  · rw [hcount, hsteps, List.length_append, List.length_singleton]
    show _ ≤ _ + boxChanges (past ++ [w.actors] ++ [b])
    omega
  · rw [hsteps]
    exact hmoves

/-- **Going back is counted.**  There is always something to take off. -/
theorem back (h : Balanced t w (past ++ [b]) future)
    (hplays : t'.plays.net = t.plays.net - 1)
    (hpushes : t'.pushes.net = t.pushes.net - if w.actors.sameBoxes b then 0 else 1)
    (hmoves : t'.plays.moves = t.plays.moves) :
    Balanced t' (w.travel countDown b (.ofParts past b (w.actors :: future))).1
      past (w.actors :: future) := by
  have hsteps : (w.travel countDown b (.ofParts past b (w.actors :: future))).1.steps =
      w.steps - 1 := rfl
  have hcount : (w.travel countDown b (.ofParts past b (w.actors :: future))).1.pushes =
      w.pushes - if w.actors.sameBoxes b then 0 else 1 := by
    simp only [travel, judge, countDown]
    split <;> rfl
  have hchanges := boxChanges_concat past b w.actors
  rw [Actors.sameBoxes_comm] at hchanges
  have hsteps_eq := h.steps_eq
  have hpushes_eq := h.pushes_eq
  have hpast_le := h.past_le
  have hboxChanges_le := h.boxChanges_le
  have hpushes_le := h.pushes_le
  have hfuture_le := h.future_le
  rw [List.length_append, List.length_singleton] at hpast_le hpushes_le
  refine ⟨.inl rfl, ?_, ?_, ?_, ?_, ?_, ?_⟩
  · rw [hsteps, hplays]
    omega
  · rw [hcount, hpushes]
    split <;> rename_i hsame
    · omega
    · rw [if_neg hsame] at hchanges
      omega
  · rw [hsteps]
    omega
  · rw [hcount]
    show boxChanges (past ++ [b]) ≤ _
    omega
  · rw [hcount, hsteps]
    show _ ≤ _ + boxChanges (past ++ [b])
    omega
  · rw [hsteps, hmoves, List.length_cons]
    omega

/-- **A play is counted.** -/
theorem play (h : Balanced t w past future) {p : Play} {r : World × List Event}
    (hp : w.play? p = some r)
    (hfits : (t.count p (w.actors.sameBoxes r.1.actors)).plays.moves < UInt32.size) :
    ∃ past future, Balanced (t.count p (w.actors.sameBoxes r.1.actors)) r.1 past future := by
  have hplays : ∀ same, (t.count p same).plays.net = t.plays.net + p.worth :=
    fun _ ↦ t.plays.net_count p
  have hpushes : ∀ same, (t.count p same).pushes.net =
      t.pushes.net + if same then 0 else p.worth := t.net_pushes_count p
  have hle := h.future_le
  rcases play?_cases hp with ⟨d, q, rfl, hplan, rfl⟩ | ⟨b, history, rfl, hundo, rfl⟩ |
    ⟨b, history, rfl, hredo, rfl⟩
  · have hadd : (if w.history.isEmpty then w.history.add w.actors else w.history).add
        (w.actorsAfter q) = .ofParts (past ++ [w.actors]) (w.actorsAfter q) [] := by
      rcases h.history with hhistory | ⟨hempty, rfl, -⟩
      · rw [hhistory, History.isEmpty_ofParts]
        exact History.add_ofParts
      · rw [hempty]
        rfl
    rw [commit_eq_travel hplan, hadd] at hfits ⊢
    refine ⟨_, _, h.forth (hplays _) (hpushes _) ?_ hfits⟩
    show w.steps + 1 + 0 ≤ t.plays.moves + 1
    omega
  · rcases h.history with hhistory | ⟨hempty, -, -⟩
    · rw [hhistory, History.undo?_ofParts_eq_some_iff] at hundo
      obtain ⟨early, rfl, rfl⟩ := hundo
      refine ⟨_, _, h.back (hplays _) ?_ rfl⟩
      rw [hpushes]
      show _ + (if w.actors.sameBoxes b then 0 else -1) = _
      split <;> omega
    · rw [hempty] at hundo
      cases hundo
  · rcases h.history with hhistory | ⟨hempty, -, -⟩
    · rw [hhistory, History.redo?_ofParts_eq_some_iff] at hredo
      obtain ⟨late, rfl, rfl⟩ := hredo
      rw [List.length_cons] at hle
      refine ⟨_, _, h.forth (hplays _) (hpushes _) ?_ hfits⟩
      show w.steps + 1 + late.length ≤ t.plays.moves
      omega
    · rw [hempty] at hredo
      cases hredo

/-- **An edit does not count**, whether it forgets the past or keeps it. -/
theorem edited (h : Balanced t w past future) (hedited : w.Edited v)
    (hscorecard : v.scorecard = w.scorecard) : ∃ past future, Balanced t v past future := by
  obtain ⟨-, hsteps, hpushes⟩ := scorecard_eq_iff.mp hscorecard
  have hle := h.future_le
  rcases hedited with ⟨hhistory, hactors, -⟩ | hstart
  · refine ⟨past, future, ?_⟩
    exact {
      history := by
        rw [hhistory, hactors]
        exact h.history
      steps_eq := hsteps ▸ h.steps_eq
      pushes_eq := hpushes ▸ h.pushes_eq
      past_le := hsteps ▸ h.past_le
      boxChanges_le := by
        rw [hactors, hpushes]
        exact h.boxChanges_le
      pushes_le := by
        rw [hactors, hpushes, hsteps]
        exact h.pushes_le
      future_le := hsteps ▸ h.future_le }
  · refine ⟨[], [], of_start hstart (hsteps ▸ h.steps_eq) (hpushes ▸ h.pushes_eq) ?_ ?_⟩
    · rw [hsteps, hpushes]
      exact h.pushes_le_steps
    · rw [hsteps]
      omega

end Balanced

/-! ## Drives -/

/-- The world is balanced, unless there were too many moves. -/
def InBalance (t : Account) (w : World) : Prop :=
  t.plays.moves < UInt32.size → ∃ past future, Balanced t w past future

theorem inBalance_empty : InBalance {} {} := fun _ ↦ ⟨[], [], {
  history := .inr ⟨rfl, rfl, rfl⟩
  steps_eq := rfl
  pushes_eq := rfl
  past_le := Nat.le_refl 0
  boxChanges_le := Nat.le_refl 0
  pushes_le := Nat.le_refl 0
  future_le := Nat.le_refl 0 }⟩

/-- **Every act keeps the balance.** -/
theorem InBalance.act (h : InBalance t w) (hw : w.Contained) (a : Act) :
    InBalance (t.enter w a) (w.act a).1 := by
  intro hfits
  cases a with
  | play p =>
    rw [fst_act_play, apply_play]
    rw [Account.enter] at hfits ⊢
    cases hp : w.play? p with
    | none =>
      rw [hp] at hfits
      exact h hfits
    | some r =>
      rw [hp] at hfits
      have hmoves : t.plays.moves < UInt32.size := by
        refine Nat.lt_of_le_of_lt ?_ hfits
        cases p <;> simp [Account.count, Tally.count]
      obtain ⟨past, future, hbalanced⟩ := h hmoves
      exact hbalanced.play hp hfits
  | load level =>
    rw [fst_act_load, respond]
    rw [Account.enter] at hfits ⊢
    cases hload : w.loadFrom level with
    | error e =>
      rw [hload] at hfits
      exact h hfits
    | ok r =>
      obtain ⟨l, -, rfl⟩ := exists_layout_of_loadFrom hload
      exact ⟨[], [], .of_start rfl rfl rfl (Nat.le_refl 0) (Nat.le_refl 0)⟩
  | click e click =>
    obtain ⟨past, future, hbalanced⟩ := h hfits
    exact hbalanced.edited (edited_act_click w e click) (scorecard_act_click w e click)
  | resize s =>
    obtain ⟨past, future, hbalanced⟩ := h hfits
    rw [fst_act_resize]
    have hwithin : w.actors.within w.field.size = w.actors :=
      hw.lawful.placed.within_eq_self fun _ hc ↦ hc
    exact hbalanced.edited (edited_resize hw.charted.complete fun _ ↦ hwithin)
      (scorecard_resize w _)

/-- The world is balanced after every drive. -/
theorem inBalance_drive (acts : List Act) : InBalance (.ofDrive acts) (drive {} acts).1 := by
  induction acts using List.reverseRecOn with
  | nil => exact inBalance_empty
  | append_singleton early a ih =>
    rw [fst_drive_concat, Account.ofDrive, Account.keep_concat]
    exact ih.act (contained_drive early) a

/-- **The counters count.**  As long as there have been fewer moves than there are words since the
last level was loaded, the steps are the moves made, less those taken back, and those made again;
the pushes are the same for the plays that changed the cells that hold boxes, and so no more than
the steps.  Taking back a move takes off exactly what it counted, and making it again adds exactly
that.  Edits leave both counters alone. -/
theorem counts_drive (acts : List Act)
    (hmoves : (Account.ofDrive acts).plays.moves < UInt32.size) :
    let w := (drive {} acts).1
    let account := Account.ofDrive acts
    (w.steps : Int) = account.plays.net ∧ (w.pushes : Int) = account.pushes.net ∧
      w.pushes ≤ w.steps ∧
      (∀ r, w.undo? = some r → r.1.steps + 1 = w.steps ∧
        r.1.pushes + (if w.actors.sameBoxes r.1.actors then 0 else 1) = w.pushes) ∧
      (∀ r, w.redo? = some r → r.1.steps = w.steps + 1 ∧
        r.1.pushes = w.pushes + if w.actors.sameBoxes r.1.actors then 0 else 1) ∧
      (∀ e click, (w.act (.click e click)).1.steps = w.steps ∧
        (w.act (.click e click)).1.pushes = w.pushes) ∧
      ∀ s, (w.act (.resize s)).1.steps = w.steps ∧ (w.act (.resize s)).1.pushes = w.pushes := by
  intro w account
  obtain ⟨past, future, h⟩ := inBalance_drive acts hmoves
  have hplay : ∀ p r, w.play? p = some r →
      (account.count p (w.actors.sameBoxes r.1.actors)).plays.moves < UInt32.size →
      (r.1.steps : Int) = w.steps + p.worth ∧
        (r.1.pushes : Int) = w.pushes + if w.actors.sameBoxes r.1.actors then 0 else p.worth := by
    intro p r hp hfits
    obtain ⟨_, _, hr⟩ := h.play hp hfits
    rw [hr.steps_eq, hr.pushes_eq, h.steps_eq, h.pushes_eq]
    exact ⟨account.plays.net_count p, account.net_pushes_count p _⟩
  refine ⟨h.steps_eq, h.pushes_eq, h.pushes_le_steps, fun r hr ↦ ?_, fun r hr ↦ ?_,
    fun e click ↦ ?_, fun s ↦ ?_⟩
  · have hworth : Play.undo.worth = -1 := rfl
    obtain ⟨hsteps, hpushes⟩ := hplay .undo r hr hmoves
    rw [hworth] at hsteps hpushes
    refine ⟨by omega, ?_⟩
    split <;> rename_i hsame
    · rw [if_pos hsame] at hpushes
      omega
    · rw [if_neg hsame] at hpushes
      omega
  · have hworth : Play.redo.worth = 1 := rfl
    obtain ⟨hsteps, hpushes⟩ := hplay .redo r hr hmoves
    rw [hworth] at hsteps hpushes
    refine ⟨by omega, ?_⟩
    split <;> rename_i hsame
    · rw [if_pos hsame] at hpushes
      omega
    · rw [if_neg hsame] at hpushes
      omega
  · exact (scorecard_eq_iff.mp (scorecard_act_click w e click)).2
  · exact (scorecard_eq_iff.mp (scorecard_resize w _)).2

/-- Two pushes are made and one is taken back.  A wall is painted, so the other cannot be taken back
any more but counts all the same; then there are two steps, and the second is taken back. -/
theorem counts_drive_edited :
    let acts : List Act := [
      .load (.rows [['M', 'B', 'F', 'T'], ['F', 'F', 'F', 'F']]), .play (.move .right),
      .play (.move .right), .play .undo, .click ⟨.wall⟩ ⟨some ⟨3, 1⟩, false⟩, .play .undo,
      .play .redo, .play (.move .down), .play (.move .left), .play .undo]
    let w := (drive {} acts).1
    Account.ofDrive acts = ⟨⟨4, 2, 0⟩, ⟨2, 1, 0⟩⟩ ∧
      (Account.ofDrive acts).plays.moves < UInt32.size ∧
      (w.steps : Int) = (Account.ofDrive acts).plays.net ∧
      (w.pushes : Int) = (Account.ofDrive acts).pushes.net ∧ w.pushes ≤ w.steps ∧
      (∃ r, w.undo? = some r ∧ r.1.steps + 1 = w.steps) ∧
      ∃ r, w.redo? = some r ∧ r.1.steps = w.steps + 1 := by
  intro acts w
  have haccount : Account.ofDrive acts = ⟨⟨4, 2, 0⟩, ⟨2, 1, 0⟩⟩ := by decide +kernel
  have hmoves : (Account.ofDrive acts).plays.moves < UInt32.size := by
    rw [haccount]
    decide
  obtain ⟨r, hr⟩ : ∃ r, w.undo? = some r := Option.isSome_iff_exists.mp (by decide +kernel)
  obtain ⟨r', hr'⟩ : ∃ r, w.redo? = some r := Option.isSome_iff_exists.mp (by decide +kernel)
  obtain ⟨hsteps, hpushes, hle, hundo, hredo, -⟩ := counts_drive acts hmoves
  exact ⟨haccount, hmoves, hsteps, hpushes, hle, ⟨r, hr, (hundo r hr).1⟩,
    ⟨r', hr', (hredo r' hr').1⟩⟩

end World

end MolePuzzle
