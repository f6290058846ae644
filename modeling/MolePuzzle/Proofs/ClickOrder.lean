import MolePuzzle.Proofs.Contained
import MolePuzzle.Proofs.LevelText

/-!
# The order of clicks

It makes no difference whether a click is made once or twice, and two clicks on different cells may
be made in either order, unless both bring the mole somewhere (`World.clicks_drive`).  Then all is
the same but the order in which boxes and targets are listed (`World.Alike`).

The second of two clicks finds a world that the first one has changed: the mole may have come to its
cell or gone from it, and so may be there to be taken away or not.  For the mole this comes out the
same in the end (`Tool.moleAfter_comm`).  For the history, what counts is whether a click is idle,
that is, changes neither the terrain nor the actors (`World.Idle`).  After two clicks it is the one
there was if both were idle in the world as it was, and else one that starts afresh, whichever of
the clicks has done it.
-/

set_option autoImplicit false

namespace MolePuzzle

/-! ## The mole -/

namespace Tool

variable {tool tool' : Tool} {cell cell' : Coord}

theorem moleAfter_moleAfter (tool : Tool) (cell : Coord) (mole : Option Coord) :
    tool.moleAfter cell (tool.moleAfter cell mole) = tool.moleAfter cell mole := by
  refine Option.ext fun c ↦ ?_
  simp only [moleAfter_eq_some_iff]
  by_cases hc : c = cell
  · simp only [hc, ↓reduceIte]
    tauto
  · simp only [if_neg hc]
    tauto

/-- **The mole is where it is in either order**, unless it is brought to both cells. -/
theorem moleAfter_comm (hne : cell ≠ cell') (hone : ¬ (tool = .mole ∧ tool' = .mole))
    (mole : Option Coord) : tool'.moleAfter cell' (tool.moleAfter cell mole) =
      tool.moleAfter cell (tool'.moleAfter cell' mole) := by
  refine Option.ext fun c ↦ ?_
  simp only [moleAfter_eq_some_iff]
  by_cases hc : c = cell
  · subst hc
    simp only [↓reduceIte, if_neg hne]
    tauto
  · by_cases hc' : c = cell'
    · subst hc'
      simp only [↓reduceIte, if_neg hne.symm]
      tauto
    · simp only [if_neg hc, if_neg hc']
      tauto

end Tool

namespace World

variable {v w : World} {tool tool' : Tool} {cell cell' : Coord}

/-! ## Idle clicks -/

/-- Painting the cell changes neither the terrain nor the actors. -/
structure Idle (w : World) (tool : Tool) (cell : Coord) : Prop where
  at?_eq : w.field.at? cell = some tool.terrain
  hasBox_eq : w.actors.hasBox cell = tool.hasBox
  mole_eq : tool.moleAfter cell w.actors.mole = w.actors.mole

theorem idle_painted (hcomplete : w.field.Complete) (hcell : cell ∈ w.field.size) :
    (w.painted tool cell).Idle tool cell where
  at?_eq := by rw [at?_painted hcomplete hcell, if_pos rfl]
  hasBox_eq := hasBox_painted_self
  mole_eq := by rw [mole_painted, Tool.moleAfter_moleAfter]

namespace Idle

theorem congr (h : w.Idle tool cell) (hat : v.field.at? cell = w.field.at? cell)
    (hactors : v.actors = w.actors) : v.Idle tool cell where
  at?_eq := hat.trans h.at?_eq
  hasBox_eq := by
    rw [hactors]
    exact h.hasBox_eq
  mole_eq := by
    rw [hactors]
    exact h.mole_eq

theorem actors_painted (h : w.Idle tool cell) : (w.painted tool cell).actors = w.actors := by
  have hboxes : withCell w.actors.boxes cell tool.hasBox = w.actors.boxes := if_pos h.hasBox_eq
  rw [World.actors_painted, h.mole_eq, hboxes]

theorem field_painted (h : w.Idle tool cell) : (w.painted tool cell).field = w.field := by
  rw [World.field_painted, setTerrain_of_at?_eq h.at?_eq]

/-- An idle click leaves the history alone. -/
theorem history_painted (h : w.Idle tool cell) : (w.painted tool cell).history = w.history := by
  have hmole : ((w.setTarget cell tool.hasTarget).setBox cell tool.hasBox).actors.mole =
      w.actors.mole := by rw [actors_setBox, setTarget]
  rw [painted, setTerrain_of_at?_eq h.at?_eq, h.mole_eq, setMole, if_pos hmole, setBox_eq]
  exact if_pos h.hasBox_eq

end Idle

/-- Any other starts it afresh. -/
theorem history_painted_of_not_idle (hcomplete : w.field.Complete) (hcell : cell ∈ w.field.size)
    (h : ¬ w.Idle tool cell) :
    (w.painted tool cell).history = .start (w.painted tool cell).actors := by
  refine (edited_painted w tool cell).resolve_left ?_
  rintro ⟨-, hactors, hat⟩
  exact h ((idle_painted hcomplete hcell).congr (hat cell).symm hactors.symm)

theorem won_painted : (w.painted tool cell).won = (w.painted tool cell).covered := by
  rw [painted, setMole_eq, setBox_eq]
  rfl

/-- A click is of no effect at all if there is nothing it changes. -/
theorem painted_of_idle (h : w.Idle tool cell)
    (htarget : w.targets.contains cell = tool.hasTarget) (hwon : w.won = w.covered) :
    w.painted tool cell = w := by
  have hset : w.setTarget cell tool.hasTarget = w := by
    have htargets : withCell w.targets cell tool.hasTarget = w.targets := if_pos htarget
    rw [setTarget, htargets, ← hwon]
  have hbox : w.setBox cell tool.hasBox = w := by
    rw [setBox, if_pos h.hasBox_eq, ← hwon]
  rw [painted, setTerrain_of_at?_eq h.at?_eq, hset, hbox, h.mole_eq, setMole_mole]

/-- **A click may be repeated.** -/
theorem painted_painted (hcomplete : w.field.Complete) (hcell : cell ∈ w.field.size) :
    (w.painted tool cell).painted tool cell = w.painted tool cell :=
  painted_of_idle (idle_painted hcomplete hcell) contains_targets_painted_self won_painted

/-! ## Two clicks -/

/-- **The history after two clicks**: the one there was if both were idle from the beginning, and
else one that starts afresh. -/
theorem history_painted_painted (tool tool' : Tool) (hcomplete : w.field.Complete)
    (hcell : cell ∈ w.field.size) (hcell' : cell' ∈ w.field.size) :
    (w.Idle tool cell ∧ w.Idle tool' cell' ∧
        ((w.painted tool cell).painted tool' cell').history = w.history) ∨
      ¬ (w.Idle tool cell ∧ w.Idle tool' cell') ∧
        ∃ a, ((w.painted tool cell).painted tool' cell').history = .start a := by
  have hcomplete' : (w.painted tool cell).field.Complete := complete_painted hcomplete
  replace hcell' : cell' ∈ (w.painted tool cell).field.size := by rwa [size_painted]
  by_cases hfirst : w.Idle tool cell
  · -- The second click finds the terrain and the actors as they were.
    have hiff : (w.painted tool cell).Idle tool' cell' ↔ w.Idle tool' cell' :=
      ⟨fun h ↦ h.congr (by rw [hfirst.field_painted]) hfirst.actors_painted.symm,
        fun h ↦ h.congr (by rw [hfirst.field_painted]) hfirst.actors_painted⟩
    by_cases hsecond : w.Idle tool' cell'
    · refine .inl ⟨hfirst, hsecond, ?_⟩
      rw [(hiff.mpr hsecond).history_painted, hfirst.history_painted]
    · exact .inr ⟨fun h ↦ hsecond h.2, _,
        history_painted_of_not_idle hcomplete' hcell' (mt hiff.mp hsecond)⟩
  · refine .inr ⟨fun h ↦ hfirst h.1, ?_⟩
    by_cases hsecond : (w.painted tool cell).Idle tool' cell'
    · rw [hsecond.history_painted, history_painted_of_not_idle hcomplete hcell hfirst]
      exact ⟨_, rfl⟩
    · exact ⟨_, history_painted_of_not_idle hcomplete' hcell' hsecond⟩

/-- So one can go back or forth after two clicks in one order if one can in the other. -/
theorem canUndo_canRedo_painted_comm (tool tool' : Tool) (hcomplete : w.field.Complete)
    (hcell : cell ∈ w.field.size) (hcell' : cell' ∈ w.field.size) :
    let v := (w.painted tool cell).painted tool' cell'
    let v' := (w.painted tool' cell').painted tool cell
    v.canUndo = v'.canUndo ∧ v.canRedo = v'.canRedo := by
  intro v v'
  rcases history_painted_painted tool tool' hcomplete hcell hcell' with
    ⟨hfirst, hsecond, hv⟩ | ⟨hnot, a, hv⟩ <;>
  rcases history_painted_painted tool' tool hcomplete hcell' hcell with
    ⟨hfirst', hsecond', hv'⟩ | ⟨hnot', a', hv'⟩
  · rw [canUndo, canRedo, canUndo, canRedo, hv, hv']
    exact ⟨rfl, rfl⟩
  · exact absurd ⟨hsecond, hfirst⟩ hnot'
  · exact absurd ⟨hsecond', hfirst'⟩ hnot
  · obtain ⟨hundo, hredo⟩ := canUndo_canRedo_of_start hv
    obtain ⟨hundo', hredo'⟩ := canUndo_canRedo_of_start hv'
    rw [hundo, hredo, hundo', hredo']
    exact ⟨rfl, rfl⟩

/-- Two worlds that show the same.  They may list boxes and targets in different orders. -/
structure Alike (v w : World) : Prop where
  field_eq : v.field = w.field
  mole_eq : v.actors.mole = w.actors.mole
  mem_boxes_iff : ∀ c, c ∈ v.actors.boxes ↔ c ∈ w.actors.boxes
  mem_targets_iff : ∀ c, c ∈ v.targets ↔ c ∈ w.targets
  won_eq : v.won = w.won
  canUndo_eq : v.canUndo = w.canUndo
  canRedo_eq : v.canRedo = w.canRedo

theorem alike_refl (w : World) : w.Alike w :=
  ⟨rfl, rfl, fun _ ↦ Iff.rfl, fun _ ↦ Iff.rfl, rfl, rfl, rfl⟩

/-- What is set on different cells may be set in either order. -/
theorem mem_withCell_comm {cells : List Coord} {present present' : Bool} (hne : cell ≠ cell')
    (c : Coord) : c ∈ withCell (withCell cells cell present) cell' present' ↔
      c ∈ withCell (withCell cells cell' present') cell present := by
  simp only [mem_withCell]
  by_cases hc : c = cell
  · simp only [hc, ↓reduceIte, if_neg hne]
  · simp only [if_neg hc]

theorem field_painted_comm (hcomplete : w.field.Complete) (hcell : cell ∈ w.field.size)
    (hcell' : cell' ∈ w.field.size) (hne : cell ≠ cell') :
    ((w.painted tool cell).painted tool' cell').field =
      ((w.painted tool' cell').painted tool cell).field := by
  refine Field.eq_of_at?_eq (complete_painted (complete_painted hcomplete))
    (complete_painted (complete_painted hcomplete)) (by simp only [size_painted]) fun c ↦ ?_
  rw [at?_painted (complete_painted hcomplete) (by rwa [size_painted]),
    at?_painted (complete_painted hcomplete) (by rwa [size_painted]),
    at?_painted hcomplete hcell, at?_painted hcomplete hcell']
  by_cases hc : c = cell
  · simp only [hc, ↓reduceIte, if_neg hne]
  · simp only [if_neg hc]

/-- **Two cells may be painted in either order.** -/
theorem alike_painted_painted (hcomplete : w.field.Complete) (hcell : cell ∈ w.field.size)
    (hcell' : cell' ∈ w.field.size) (hne : cell ≠ cell')
    (hone : ¬ (tool = .mole ∧ tool' = .mole)) :
    ((w.painted tool cell).painted tool' cell').Alike
      ((w.painted tool' cell').painted tool cell) := by
  have hboxes : ∀ c, c ∈ ((w.painted tool cell).painted tool' cell').actors.boxes ↔
      c ∈ ((w.painted tool' cell').painted tool cell).actors.boxes := by
    simp only [actors_painted]
    exact mem_withCell_comm hne
  have htargets : ∀ c, c ∈ ((w.painted tool cell).painted tool' cell').targets ↔
      c ∈ ((w.painted tool' cell').painted tool cell).targets := by
    simp only [targets_painted]
    exact mem_withCell_comm hne
  obtain ⟨hundo, hredo⟩ := canUndo_canRedo_painted_comm tool tool' hcomplete hcell hcell'
  exact {
    field_eq := field_painted_comm hcomplete hcell hcell' hne
    mole_eq := by
      simp only [mole_painted]
      exact Tool.moleAfter_comm hne hone _
    mem_boxes_iff := hboxes
    mem_targets_iff := htargets
    won_eq := by
      rw [won_painted, won_painted, Bool.eq_iff_iff, Layout.covered_iff, Layout.covered_iff]
      simp only [hboxes, htargets]
    canUndo_eq := hundo
    canRedo_eq := hredo }

/-- A click that is made again changes nothing. -/
theorem act_click_act_click (hcomplete : w.field.Complete) (e : Editor) (click : Click) :
    ((w.act (.click e click)).1.act (.click e click)).1 = (w.act (.click e click)).1 := by
  rcases act_click_cases e click w.field.size with hmiss | ⟨cell, hcell, -, hhit⟩
  · rw [hmiss w rfl, hmiss w rfl]
  · rw [hhit w rfl, hhit _ size_painted]
    exact painted_painted hcomplete hcell

/-- Clicks on different cells may be made in either order, if not both bring the mole. -/
theorem alike_act_click_act_click (hcomplete : w.field.Complete) {e e' : Editor}
    {click click' : Click} (hne : click.cell ≠ click'.cell)
    (hone : ¬ (e.toolFor click = .mole ∧ e'.toolFor click' = .mole)) :
    ((w.act (.click e click)).1.act (.click e' click')).1.Alike
      ((w.act (.click e' click')).1.act (.click e click)).1 := by
  rcases act_click_cases e click w.field.size with hmiss | ⟨cell, hcell, hclick, hhit⟩ <;>
  rcases act_click_cases e' click' w.field.size with hmiss' | ⟨cell', hcell', hclick', hhit'⟩
  · rw [hmiss w rfl, hmiss' w rfl, hmiss w rfl]
    exact alike_refl w
  · rw [hmiss w rfl, hhit' w rfl, hmiss _ size_painted]
    exact alike_refl _
  · rw [hhit w rfl, hmiss' w rfl, hmiss' _ size_painted, hhit w rfl]
    exact alike_refl _
  · rw [hhit w rfl, hhit' w rfl, hhit _ size_painted, hhit' _ size_painted]
    rw [hclick, hclick', Ne, Option.some.injEq] at hne
    exact alike_painted_painted hcomplete hcell hcell' hne hone

/-- **Clicks may be repeated, and made in any order.**  After any drive:

* a click on the same cell that applies the same tool again changes nothing, not even the history;
* two clicks on different cells, of which not both apply the mole tool, lead to the same terrain,
  mole, boxes and targets in either order; the world is told to be won or not, and one can go back
  or forth, as in the other order. -/
theorem clicks_drive (acts : List Act) (e e' : Editor) (click click' : Click) :
    let w := (drive {} acts).1
    let v := (w.act (.click e click)).1
    let v' := (w.act (.click e' click')).1
    (click'.cell = click.cell → e'.toolFor click' = e.toolFor click →
        (v.act (.click e' click')).1 = v) ∧
      (click.cell ≠ click'.cell → ¬ (e.toolFor click = .mole ∧ e'.toolFor click' = .mole) →
        (v.act (.click e' click')).1.Alike (v'.act (.click e click)).1) := by
  intro w v v'
  have hcomplete : w.field.Complete := (contained_drive acts).charted.complete
  refine ⟨fun hcell htool ↦ ?_, fun hne hone ↦ alike_act_click_act_click hcomplete hne hone⟩
  rw [fst_act_click_congr hcell htool]
  exact act_click_act_click hcomplete e click

/-- The mole has gone down.  It is set elsewhere, and its cell is made a target, which takes it away
if it is still there.  Then floor is painted on floor, and another target: both clicks are idle, and
the move can still be taken back. -/
theorem clicks_drive_mole :
    let acts : List Act := [.load (.rows [['M', 'B', 'F'], ['F', 'F', 'T']]), .play (.move .down)]
    let w := (drive {} acts).1
    let mole : Act := .click ⟨.mole⟩ ⟨some ⟨2, 0⟩, false⟩
    let target : Act := .click ⟨.target⟩ ⟨some ⟨0, 1⟩, false⟩
    let floor : Act := .click ⟨.floor⟩ ⟨some ⟨2, 0⟩, false⟩
    let other : Act := .click ⟨.target⟩ ⟨some ⟨1, 1⟩, false⟩
    ((w.act mole).1.act mole).1 = (w.act mole).1 ∧
      ((w.act mole).1.act target).1.Alike ((w.act target).1.act mole).1 ∧
      ((w.act mole).1.act target).1.canUndo = false ∧
      ((w.act floor).1.act other).1.Alike ((w.act other).1.act floor).1 ∧
      ((w.act floor).1.act other).1.canUndo = true := by
  intro acts w mole target floor other
  obtain ⟨hagain, -⟩ := clicks_drive acts ⟨.mole⟩ ⟨.mole⟩ ⟨some ⟨2, 0⟩, false⟩ ⟨some ⟨2, 0⟩, false⟩
  obtain ⟨-, hmole⟩ := clicks_drive acts ⟨.mole⟩ ⟨.target⟩ ⟨some ⟨2, 0⟩, false⟩ ⟨some ⟨0, 1⟩, false⟩
  obtain ⟨-, hfloor⟩ :=
    clicks_drive acts ⟨.floor⟩ ⟨.target⟩ ⟨some ⟨2, 0⟩, false⟩ ⟨some ⟨1, 1⟩, false⟩
  exact ⟨hagain rfl rfl, hmole (by decide) (by decide), by decide, hfloor (by decide) (by decide),
    by decide⟩

end World

end MolePuzzle
