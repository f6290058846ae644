import MolePuzzle.Proofs.Reachable

/-!
# The history mirrors the world

The world keeps its actors twice: as they are, and as the present moment of the history.
`World.Mirrored` says that the two agree.  Every command changes the actors and the history on its
own account, so this is a fact about all of them together.

There is one way to lose it.  A resize takes away what stands outside of the field, and restarts the
history if the size has changed.  A resize to the size that the field has already can take away
something, too, since boxes and the mole may be set outside, and then the history still shows it
(`World.DropsSilently`).  The main statement `World.mirrored_iff_not_dropsSilently` is that this is
the only way: a run is mirrored throughout, makes undone moments again as they were, and never goes
back to a moment before a resize that took something away, exactly when no resize drops silently.
-/

set_option autoImplicit false

namespace MolePuzzle

namespace World

/-- The present moment of the history, if there is one, is that of the world. -/
def Mirrored (w : World) : Prop :=
  w.history.isEmpty = false → w.history.present? = some w.actors

instance (w : World) : Decidable w.Mirrored := inferInstanceAs (Decidable (_ → _))

/-- What has just been taken back can be made again, with the actors where they were. -/
def RedoRestores (w : World) : Prop :=
  ∀ r, w.undo? = some r → ∃ r', r.1.redo? = some r' ∧ r'.1.actors = w.actors

/-- The input resizes the field to the size it has, and takes an actor away while there are
remembered moments. -/
def DropsSilently (w : World) : Input → Prop
  | .command (.resize s) => w.history.isEmpty = false ∧
      (w.field.setSize s).size = w.field.size ∧ (w.resize s).1.actors ≠ w.actors
  | _ => False

/-- After a resize that took an actor away, only what has been present since then is remembered. -/
def ForgetsDropped (inputs : List Input) : Prop :=
  ∀ past s late, inputs = past ++ .command (.resize s) :: late →
    ((run {} past).1.resize s).1.actors ≠ (run {} past).1.actors →
    ∀ a ∈ (run {} inputs).1.history.entries, ∃ mid ∈ late.inits,
      (run {} (past ++ .command (.resize s) :: mid)).1.actors = a

variable {v w : World}

/-! ## One step -/

theorem shows_play (h : w.history.Shows w.actors) (p : Play) :
    (w.apply p.command).1.history.Shows (w.apply p.command).1.actors := by
  rcases w.apply_play_cases p with
    hstay | ⟨d, q, -, -, hmove⟩ | ⟨a, history, -, hundo, htravel⟩ |
      ⟨a, history, -, hredo, htravel⟩
  · rwa [hstay]
  · obtain ⟨past, -, hadd⟩ := h.exists_add
    have hhistory : (w.commit q).1.history = .ofParts (past ++ [w.actors]) (w.actorsAfter q) [] :=
      hadd _
    rw [hmove, hhistory]
    exact History.shows_ofParts
  · obtain ⟨past, future, -, rfl⟩ := h.undo?_eq_some hundo
    rw [htravel]
    exact History.shows_ofParts
  · obtain ⟨past, future, -, rfl⟩ := h.redo?_eq_some hredo
    rw [htravel]
    exact History.shows_ofParts

/-- **Every input but a silent drop keeps the history showing the world.** -/
theorem shows_respond (h : w.history.Shows w.actors) {input : Input}
    (hdrops : ¬ w.DropsSilently input) :
    (w.respond input).1.history.Shows (w.respond input).1.actors := by
  rcases w.respond_cases input with ⟨p, rfl⟩ | ⟨s, rfl⟩ | hedited
  · exact shows_play h p
  · show (w.resize s).1.history.Shows (w.resize s).1.actors
    rw [history_resize]
    split
    · rename_i hsize
      rcases h with hempty | hshows
      · exact .inl hempty
      · have hkept : (w.resize s).1.actors = w.actors := by
          obtain ⟨past, future, hhistory⟩ := hshows
          have hstarted : w.history.isEmpty = false := by rw [hhistory, History.isEmpty_ofParts]
          simpa [DropsSilently, hstarted, hsize.symm] using hdrops
        rw [hkept]
        exact .inr hshows
    · exact History.shows_start _
  · exact hedited.shows h

/-- A silent drop makes the history and the world differ. -/
theorem not_mirrored_of_dropsSilently (h : w.Mirrored) {input : Input}
    (hdrops : w.DropsSilently input) : ¬ (w.respond input).1.Mirrored := by
  obtain ⟨s, rfl, hstarted, hsize, hactors⟩ : ∃ s, input = .command (.resize s) ∧
      w.history.isEmpty = false ∧ (w.field.setSize s).size = w.field.size ∧
      (w.resize s).1.actors ≠ w.actors := by
    match input, hdrops with
    | .command (.resize s), hdrops => exact ⟨s, rfl, hdrops⟩
  intro hmirrored
  have hhistory : (w.resize s).1.history = w.history := by
    rw [history_resize, if_pos hsize.symm]
  have hpresent : (w.resize s).1.history.present? = some (w.resize s).1.actors :=
    hmirrored (by rw [respond, apply, hhistory]; exact hstarted)
  rw [hhistory, h hstarted, Option.some.injEq] at hpresent
  exact hactors hpresent.symm

/-- A resize that takes an actor away and is no silent drop leaves one remembered moment at most. -/
theorem eq_of_mem_entries_resize {s : Size} (hdrops : ¬ w.DropsSilently (.command (.resize s)))
    (hactors : (w.resize s).1.actors ≠ w.actors) {a : Actors}
    (ha : a ∈ (w.resize s).1.history.entries) : a = (w.resize s).1.actors := by
  rw [history_resize] at ha
  split at ha
  · rename_i hsize
    have hempty : w.history.isEmpty = true := by
      rw [← Bool.not_eq_false]
      exact fun hstarted ↦ hdrops ⟨hstarted, hsize.symm, hactors⟩
    rw [History.isEmpty, Array.isEmpty_iff] at hempty
    rw [hempty] at ha
    exact absurd ha (Array.not_mem_empty a)
  · exact History.mem_entries_start.mp ha

theorem redoRestores_of_shows (h : w.history.Shows w.actors) : w.RedoRestores := by
  intro r hr
  obtain ⟨⟨a, history⟩, hundo, rfl⟩ := Option.map_eq_some_iff.mp hr
  obtain ⟨past, future, -, rfl⟩ := h.undo?_eq_some hundo
  refine ⟨_, by rw [redo?]; exact congrArg _ History.redo?_ofParts_cons, rfl⟩

/-! ## Runs -/

/-- What is remembered at the end of a run was remembered at its start or present on the way. -/
theorem mem_entries_run {inputs : List Input} {a : Actors}
    (ha : a ∈ (w.run inputs).1.history.entries) :
    a ∈ w.history.entries ∨ ∃ mid ∈ inputs.inits, (w.run mid).1.actors = a := by
  induction inputs generalizing w with
  | nil => exact .inl ha
  | cons input rest ih =>
    rw [fst_run_cons] at ha
    rcases ih ha with ha | ⟨mid, hmid, rfl⟩
    · rcases mem_entries_respond ha with ha | rfl | rfl
      · exact .inl ha
      · exact .inr ⟨[], by simp, rfl⟩
      · exact .inr ⟨[input], by simp, rfl⟩
    · refine .inr ⟨input :: mid, ?_, rfl⟩
      rw [List.mem_inits] at hmid ⊢
      exact List.cons_prefix_cons.mpr ⟨rfl, hmid⟩

/-- **Without silent drops the history shows the world** at the end of a run. -/
theorem shows_run (h : w.history.Shows w.actors) {inputs : List Input}
    (hdrops : ∀ past input, past ++ [input] <+: inputs →
      ¬ (w.run past).1.DropsSilently input) :
    (w.run inputs).1.history.Shows (w.run inputs).1.actors := by
  induction inputs using List.reverseRecOn with
  | nil => exact h
  | append_singleton early input ih =>
    rw [fst_run_concat]
    refine shows_respond (ih ?_) (hdrops early input (List.prefix_refl _))
    exact fun past input hpast ↦ hdrops past input (hpast.trans (List.prefix_append _ _))

/-- Without silent drops no moment is remembered from before an actor was taken away. -/
theorem forgetsDropped_of_not_dropsSilently {inputs : List Input}
    (hdrops : ∀ past input, past ++ [input] <+: inputs →
      ¬ (run {} past).1.DropsSilently input) : ForgetsDropped inputs := by
  rintro past s late rfl hactors a ha
  have hdrop : ¬ (run {} past).1.DropsSilently (.command (.resize s)) :=
    hdrops past _ (by simp)
  rw [fst_run_append, fst_run_cons] at ha
  rcases mem_entries_run ha with ha | ⟨mid, hmid, hmidActors⟩
  · refine ⟨[], by simp, ?_⟩
    rw [fst_run_concat]
    exact (eq_of_mem_entries_resize hdrop hactors ha).symm
  · refine ⟨mid, hmid, ?_⟩
    rw [fst_run_append, fst_run_cons]
    exact hmidActors

/-- **Only a silent drop parts the history from the world.**  A run of any commands and levels is
mirrored after each input, can make again as it was what it takes back, and never goes back to a
moment before a resize that took an actor away, exactly when none of its inputs drops silently. -/
theorem mirrored_iff_not_dropsSilently (inputs : List Input) :
    (∀ past, past <+: inputs → (run {} past).1.Mirrored ∧ (run {} past).1.RedoRestores ∧
      ForgetsDropped past) ↔
    ∀ past input, past ++ [input] <+: inputs → ¬ (run {} past).1.DropsSilently input := by
  constructor
  · intro hmirrored past input hpast hdrops
    have hbefore := (hmirrored past ((List.prefix_append _ _).trans hpast)).1
    have hafter := (hmirrored (past ++ [input]) hpast).1
    rw [fst_run_concat] at hafter
    exact not_mirrored_of_dropsSilently hbefore hdrops hafter
  · intro hdrops past hpast
    have hdropsPast : ∀ past' input, past' ++ [input] <+: past →
        ¬ (run {} past').1.DropsSilently input :=
      fun past' input hpast' ↦ hdrops past' input (hpast'.trans hpast)
    have hshows := shows_run (w := {}) (History.shows_empty _) hdropsPast
    exact ⟨hshows.present?, redoRestores_of_shows hshows,
      forgetsDropped_of_not_dropsSilently hdropsPast⟩

/-- A box outside of the field is dropped silently, and comes back when the move made before it is
taken back. -/
theorem not_mirrored_outside_box :
    let inputs : List Input := [.load (.rows [['M', 'F']]), .command (.setBox ⟨5, 0⟩ true),
      .command (.move .right), .command (.resize ⟨2, 1⟩)]
    ¬ (run {} inputs).1.Mirrored ∧ ¬ (run {} inputs).1.RedoRestores ∧ ¬ ForgetsDropped inputs ∧
      (run {} inputs).1.actors.boxes = [] ∧
      (run {} (inputs ++ [.command .undo])).1.actors.boxes = [⟨5, 0⟩] := by
  intro inputs
  refine ⟨by decide, ?_, ?_, by decide, by decide⟩
  · intro hrestores
    obtain ⟨r, hredo, hactors⟩ := hrestores _ rfl
    cases hredo
    exact absurd hactors (by decide)
  · intro hforgets
    have hremembered := hforgets (inputs.take 3) ⟨2, 1⟩ [] rfl (by decide)
      ⟨some ⟨1, 0⟩, [⟨5, 0⟩]⟩ (Array.mem_toList_iff.mp (by decide))
    exact absurd hremembered (by decide)

end World

end MolePuzzle
