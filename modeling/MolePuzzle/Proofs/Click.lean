import MolePuzzle.Proofs.Edit
import MolePuzzle.Proofs.Run

/-!
# What a click does

A click on a cell of the field is carried out as up to four commands.  `World.painted` is what they
come to for every tool (`World.fst_applyAll_paint`): the cell gets the terrain of the tool, its box
and its target are set to what the tool paints, and the mole is put where the tool wants it.  The
equations of this file describe that world, and `World.fst_act_click` says that a click does this or
nothing.
-/

set_option autoImplicit false

namespace MolePuzzle

namespace Tool

/-- Where the mole is after a cell has been painted. -/
def moleAfter (tool : Tool) (cell : Coord) (mole : Option Coord) : Option Coord :=
  match tool with
  | .mole => some cell
  | .floor => mole
  | _ => if mole = some cell then none else mole

variable {tool : Tool} {cell c : Coord} {mole : Option Coord}

theorem terrain_of_hasBox (h : tool.hasBox = true) : tool.terrain = .floor := by
  cases tool with
  | placedBox | looseBox => rfl
  | _ => cases h

theorem terrain_of_hasTarget (h : tool.hasTarget = true) : tool.terrain = .floor := by
  cases tool with
  | placedBox | target => rfl
  | _ => cases h

/-- The mole is on the painted cell if it is brought there or may stay there, and on any other cell
if it was there and is not brought away. -/
theorem moleAfter_eq_some_iff : tool.moleAfter cell mole = some c ↔
    if c = cell then tool = .mole ∨ tool = .floor ∧ mole = some cell
    else tool ≠ .mole ∧ mole = some c := by
  by_cases hc : c = cell
  · subst hc
    cases tool <;> simp [moleAfter]
  · rw [if_neg hc]
    cases tool with
    | mole => simp [moleAfter, Ne.symm hc]
    | floor => simp [moleAfter]
    | _ =>
      simp only [moleAfter]
      split <;> rename_i hmole
      · simp [hmole, Ne.symm hc]
      · simp

/-- The mole stands on the painted cell only if that has become floor without a box, and elsewhere
only if it was there before. -/
theorem moleAfter_eq_some (h : tool.moleAfter cell mole = some c) :
    (c = cell ∧ tool.terrain = .floor ∧ tool.hasBox = false) ∨ (c ≠ cell ∧ mole = some c) := by
  rw [moleAfter_eq_some_iff] at h
  split at h <;> rename_i hc
  · rcases h with rfl | ⟨rfl, -⟩ <;> exact .inl ⟨hc, rfl, rfl⟩
  · exact .inr ⟨hc, h.2⟩

end Tool

namespace World

/-- The world with a tool painted onto a cell. -/
def painted (w : World) (tool : Tool) (cell : Coord) : World :=
  (((w.setTerrain cell tool.terrain).setTarget cell tool.hasTarget).setBox cell
    tool.hasBox).setMole (tool.moleAfter cell w.actors.mole)

theorem setMole_mole (w : World) : w.setMole w.actors.mole = w := if_pos rfl

/-- **The commands of a click paint the cell.** -/
theorem fst_applyAll_paint (w : World) (tool : Tool) (cell : Coord) :
    (w.applyAll (Editor.paint tool cell w.actors.mole)).1 = w.painted tool cell := by
  have hbefore : ∀ v : World, v.actors.mole = w.actors.mole →
      (v.applyAll (Editor.moleCommands tool cell w.actors.mole)).1 =
        v.setMole (tool.moleAfter cell w.actors.mole) := by
    intro v hv
    have hstay : v.setMole w.actors.mole = v := hv ▸ setMole_mole v
    cases tool with
    | mole => rfl
    | floor => exact hstay.symm
    | _ =>
      simp only [Editor.moleCommands, Tool.moleAfter]
      split
      · rfl
      · exact hstay.symm
  rw [Editor.paint, fst_applyAll_append]
  exact hbefore _ (by simp [applyAll, apply, setTarget])

/-- A click paints a cell of the field with the tool it applies, or does nothing. -/
theorem fst_act_click (w : World) (e : Editor) (click : Click) :
    (w.act (.click e click)).1 = match click.cell with
      | none => w
      | some cell => if cell ∈ w.field.size then w.painted (e.toolFor click) cell else w := by
  rw [act, Act.inputs, ← applyAll_eq_run, Editor.click]
  cases click.cell with
  | none => rfl
  | some cell =>
    dsimp only
    split
    · exact fst_applyAll_paint w _ cell
    · rfl

theorem fst_act_click_of_mem {w : World} {e : Editor} {click : Click} {cell : Coord}
    (hclick : click.cell = some cell) (hcell : cell ∈ w.field.size) :
    (w.act (.click e click)).1 = w.painted (e.toolFor click) cell := by
  rw [fst_act_click, hclick]
  exact if_pos hcell

theorem fst_act_click_of_not_mem {w : World} {e : Editor} {click : Click}
    (h : ∀ cell, click.cell = some cell → cell ∉ w.field.size) :
    (w.act (.click e click)).1 = w := by
  rw [fst_act_click]
  split
  · rfl
  · rename_i cell hclick
    exact if_neg (h cell hclick)

/-- What holds of a world, and of it with any cell of its field painted, holds after a click. -/
theorem act_click_induction {P : World → Prop} {w : World} (hw : P w)
    (hpainted : ∀ tool, ∀ cell ∈ w.field.size, P (w.painted tool cell)) (e : Editor)
    (click : Click) : P (w.act (.click e click)).1 := by
  rw [fst_act_click]
  split
  · exact hw
  · split
    · rename_i hcell
      exact hpainted _ _ hcell
    · exact hw

/-- A click has no events. -/
theorem snd_act_click (w : World) (e : Editor) (click : Click) :
    (w.act (.click e click)).2 = [] := by
  have hmole : ∀ (v : World) tool cell mole,
      (v.applyAll (Editor.moleCommands tool cell mole)).2 = [] := by
    intro v tool cell mole
    cases tool with
    | mole | floor => rfl
    | _ =>
      simp only [Editor.moleCommands]
      split <;> rfl
  rw [act, Act.inputs, ← applyAll_eq_run, Editor.click]
  split
  · rfl
  · split
    · exact hmole _ _ _ _
    · rfl

/-! ## The painted world -/

variable {w : World} {tool : Tool} {cell : Coord}

theorem field_painted : (w.painted tool cell).field = (w.setTerrain cell tool.terrain).field := by
  simp [painted, setTarget]

theorem at?_painted (hcomplete : w.field.Complete) (hcell : cell ∈ w.field.size) (c : Coord) :
    (w.painted tool cell).field.at? c =
      if c = cell then some tool.terrain else w.field.at? c := by
  rw [field_painted, at?_setTerrain hcomplete hcell]

/-- A tool that paints floor leaves floor on the cell. -/
theorem isFloor_painted_self (hcomplete : w.field.Complete) (hcell : cell ∈ w.field.size)
    (hterrain : tool.terrain = .floor) : (w.painted tool cell).field.IsFloor cell := by
  rw [Field.IsFloor, at?_painted hcomplete hcell, if_pos rfl, hterrain]

/-- Floor stays floor on all other cells. -/
theorem isFloor_painted_of_ne (hcomplete : w.field.Complete) (hcell : cell ∈ w.field.size)
    {c : Coord} (hc : c ≠ cell) (hfloor : w.field.IsFloor c) :
    (w.painted tool cell).field.IsFloor c := by
  rw [Field.IsFloor, at?_painted hcomplete hcell, if_neg hc]
  exact hfloor

/-- Cells of a list that stand on floor do so after the painting, if the painted cell is kept in the
list only by a tool that paints floor. -/
theorem isFloor_painted_of_mem_withCell (hcomplete : w.field.Complete)
    (hcell : cell ∈ w.field.size) {cells : List Coord} {present : Bool}
    (hpresent : present = true → tool.terrain = .floor) (hcells : ∀ c ∈ cells, w.field.IsFloor c)
    {c : Coord} (hc : c ∈ withCell cells cell present) :
    (w.painted tool cell).field.IsFloor c := by
  rw [mem_withCell] at hc
  split at hc
  · rename_i he
    rw [he]
    exact isFloor_painted_self hcomplete hcell (hpresent hc)
  · rename_i he
    exact isFloor_painted_of_ne hcomplete hcell he (hcells c hc)

theorem actors_painted : (w.painted tool cell).actors =
    ⟨tool.moleAfter cell w.actors.mole, withCell w.actors.boxes cell tool.hasBox⟩ := by
  simp [painted, setTarget]

theorem targets_painted :
    (w.painted tool cell).targets = withCell w.targets cell tool.hasTarget := by
  simp [painted, setTarget]

theorem size_painted : (w.painted tool cell).field.size = w.field.size := by
  rw [field_painted, size_setTerrain]

theorem complete_painted (hcomplete : w.field.Complete) :
    (w.painted tool cell).field.Complete := by
  rw [field_painted]
  exact complete_setTerrain hcomplete cell tool.terrain

theorem hasBox_painted_self : (w.painted tool cell).actors.hasBox cell = tool.hasBox := by
  rw [Bool.eq_iff_iff, Actors.hasBox_iff, actors_painted, mem_withCell, if_pos rfl]

theorem contains_targets_painted_self :
    (w.painted tool cell).targets.contains cell = tool.hasTarget := by
  rw [Bool.eq_iff_iff, List.contains_iff_mem, targets_painted, mem_withCell, if_pos rfl]

theorem mole_painted :
    (w.painted tool cell).actors.mole = tool.moleAfter cell w.actors.mole := by
  rw [actors_painted]

theorem scorecard_painted : (w.painted tool cell).scorecard = w.scorecard := by
  simp [painted]

theorem edited_painted (w : World) (tool : Tool) (cell : Coord) :
    w.Edited (w.painted tool cell) :=
  (((edited_setTerrain w cell _).trans (edited_setTarget _ cell _)).trans
    (edited_setBox _ cell _)).trans (edited_setMole _ _)

theorem scorecard_act_click (w : World) (e : Editor) (click : Click) :
    (w.act (.click e click)).1.scorecard = w.scorecard :=
  act_click_induction (P := fun v ↦ v.scorecard = w.scorecard) rfl (fun _ _ _ ↦ scorecard_painted)
    e click

theorem edited_act_click (w : World) (e : Editor) (click : Click) :
    w.Edited (w.act (.click e click)).1 :=
  act_click_induction (P := w.Edited) (edited_refl w) (fun tool cell _ ↦ edited_painted w tool cell)
    e click

theorem Surveyed.painted (h : w.Surveyed) : (w.painted tool cell).Surveyed :=
  (h.setTerrain cell tool.terrain).congr field_painted (by simp [World.painted, setTarget])

/-- A click is known from its cell and the tool it applies. -/
theorem fst_act_click_congr {e e' : Editor} {click click' : Click}
    (hcell : click.cell = click'.cell) (htool : e.toolFor click = e'.toolFor click') (w : World) :
    (w.act (.click e click)).1 = (w.act (.click e' click')).1 := by
  rw [fst_act_click, fst_act_click, hcell, htool]

/-- In all worlds of one size a click misses the field, or it hits the same cell. -/
theorem act_click_cases (e : Editor) (click : Click) (s : Size) :
    (∀ w : World, w.field.size = s → (w.act (.click e click)).1 = w) ∨
      ∃ cell ∈ s, click.cell = some cell ∧ ∀ w : World, w.field.size = s →
        (w.act (.click e click)).1 = w.painted (e.toolFor click) cell := by
  by_cases hhit : ∃ cell ∈ s, click.cell = some cell
  · obtain ⟨cell, hcell, hclick⟩ := hhit
    exact .inr ⟨cell, hcell, hclick, fun w hw ↦ fst_act_click_of_mem hclick (hw ▸ hcell)⟩
  · refine .inl fun w hw ↦ fst_act_click_of_not_mem fun cell hclick hcell ↦ ?_
    exact hhit ⟨cell, hw ▸ hcell, hclick⟩

end World

end MolePuzzle
