import Mathlib.Data.List.Forall2
import MolePuzzle.Proofs.Onlooker
import MolePuzzle.Proofs.Turned

/-!
# The rules have no preferred direction

When a level is turned, and everything that the player asks for is turned with it, the game goes as
before, only turned (`World.play_turned`).

Two worlds are compared that are turned in all that matters to play (`World.Turned`).  What one of
them allows the other allows as well, and afterwards they are turned again
(`World.Turned.play?_eq_some`); as turning is its own inverse, neither allows more than the other
(`World.Turned.apply`).  The worlds have to keep to their fields for this: floor elsewhere could be
reached by a step that has no turned counterpart.
-/

set_option autoImplicit false

namespace MolePuzzle

/-! ## Related histories -/

theorem forall₂_concat_iff {α β : Type} {R : α → β → Prop} {a : α} {b : β} {as : List α}
    {bs : List β} : List.Forall₂ R (as ++ [a]) (bs ++ [b]) ↔ List.Forall₂ R as bs ∧ R a b := by
  rw [← List.forall₂_reverse_iff, List.reverse_concat, List.reverse_concat, List.forall₂_cons,
    List.forall₂_reverse_iff, and_comm]

namespace History

/-- The histories run in parallel: there are as many moments before and after the present one, and
moments in the same place are related. -/
inductive Related (R : Actors → Actors → Prop) : History → History → Prop where
  | ofParts {past past' future future' : List Actors} {a a' : Actors}
      (hpast : List.Forall₂ R past past') (hpresent : R a a')
      (hfuture : List.Forall₂ R future future') :
      Related R (.ofParts past a future) (.ofParts past' a' future')

namespace Related

variable {R S : Actors → Actors → Prop} {h h' k : History} {a a' b : Actors}

theorem start (ha : R a a') : Related R (.start a) (.start a') := .ofParts .nil ha .nil

theorem symm (hRS : ∀ a a', R a a' → S a' a) (hk : Related R h k) : Related S k h := by
  have hflip : ∀ {as bs : List Actors}, List.Forall₂ R as bs → List.Forall₂ S bs as :=
    fun has ↦ (has.imp hRS).flip
  cases hk with
  | ofParts hpast hpresent hfuture =>
    exact .ofParts (hflip hpast) (hRS _ _ hpresent) (hflip hfuture)

theorem isEmpty_eq (hk : Related R h k) : h.isEmpty = false ∧ k.isEmpty = false := by
  cases hk
  exact ⟨isEmpty_ofParts, isEmpty_ofParts⟩

theorem add (hk : Related R h k) (ha : R a a') : Related R (h.add a) (k.add a') := by
  cases hk with
  | ofParts hpast hpresent hfuture =>
    rw [add_ofParts, add_ofParts]
    exact .ofParts (forall₂_concat_iff.mpr ⟨hpast, hpresent⟩) ha .nil

theorem undo? (hk : Related R h k) (hundo : h.undo? = some (b, h')) :
    ∃ b' k', k.undo? = some (b', k') ∧ R b b' ∧ Related R h' k' := by
  cases hk with
  | @ofParts past past' future future' a a' hpast hpresent hfuture =>
    obtain ⟨early, rfl, rfl⟩ := undo?_ofParts_eq_some_iff.mp hundo
    rcases List.eq_nil_or_concat' past' with rfl | ⟨early', b', rfl⟩
    · simpa using hpast.length_eq
    · obtain ⟨hearly, hb⟩ := forall₂_concat_iff.mp hpast
      exact ⟨b', _, undo?_ofParts_concat, hb, .ofParts hearly hb (.cons hpresent hfuture)⟩

theorem redo? (hk : Related R h k) (hredo : h.redo? = some (b, h')) :
    ∃ b' k', k.redo? = some (b', k') ∧ R b b' ∧ Related R h' k' := by
  cases hk with
  | @ofParts past past' future future' a a' hpast hpresent hfuture =>
    obtain ⟨late, rfl, rfl⟩ := redo?_ofParts_eq_some_iff.mp hredo
    cases hfuture with
    | @cons _ b' _ late' hb hlate =>
      exact ⟨b', _, redo?_ofParts_cons, hb,
        .ofParts (forall₂_concat_iff.mpr ⟨hpast, hpresent⟩) hb hlate⟩

theorem canUndo_eq (hk : Related R h k) : k.canUndo = h.canUndo := by
  cases hk with
  | ofParts hpast hpresent hfuture =>
    rw [Bool.eq_iff_iff, canUndo_ofParts, canUndo_ofParts, ← List.length_pos_iff,
      ← List.length_pos_iff, hpast.length_eq]

theorem canRedo_eq (hk : Related R h k) : k.canRedo = h.canRedo := by
  cases hk with
  | ofParts hpast hpresent hfuture =>
    rw [Bool.eq_iff_iff, canRedo_ofParts, canRedo_ofParts, ← List.length_pos_iff,
      ← List.length_pos_iff, hfuture.length_eq]

end Related

end History

/-! ## Turned worlds -/

/-- The world is turned in all that matters to play and can be seen of it. -/
structure World.Turned (σ : Symmetry) (w v : World) : Prop where
  layout : w.toLayout.Turned σ v.toLayout
  mem_floor_iff : ∀ c, σ.cell w.field.size c ∈ v.floor ↔ c ∈ w.floor
  history : w.history.Related (Actors.Turned σ w.field.size) v.history
  steps_eq : v.steps = w.steps
  pushes_eq : v.pushes = w.pushes
  won_eq : v.won = w.won

/-- The plan of the turned move. -/
def Symmetry.plan (σ : Symmetry) (s : Size) (p : Plan) : Plan :=
  ⟨σ.cell s p.origin, σ.cell s p.destination, p.push.map (σ.push s)⟩

/-- Once the history has been started, a move goes to the moment that it adds. -/
theorem World.commit_eq_travel_of_started {w : World} {d : Direction} {p : Plan}
    (hp : w.plan? d = some p) (hnodup : w.actors.boxes.Nodup)
    (hstarted : w.history.isEmpty = false) :
    w.commit p = w.travel countUp (w.actorsAfter p) (w.history.add (w.actorsAfter p)) := by
  obtain ⟨history, hcommit⟩ := commit_eq_travel_of_nodup hp hnodup
  have hhistory : (w.commit p).1.history = history := congrArg (fun r ↦ r.1.history) hcommit
  have hadd : (w.commit p).1.history = w.history.add (w.actorsAfter p) := by
    simp [commit, judge, hstarted]
  rw [hcommit, ← hhistory, hadd]

namespace World.Turned

variable {σ : Symmetry} {w v : World} {d : Direction} {p : Plan} {a a' : Actors}
  {history history' : History}

theorem symm (h : w.Turned σ v) : v.Turned σ w where
  layout := h.layout.symm
  mem_floor_iff c := by rw [h.layout.size_eq, σ.cell_size, ← h.mem_floor_iff, σ.cell_cell]
  history := by
    rw [h.layout.size_eq]
    exact h.history.symm fun _ _ ha ↦ ha.symm
  steps_eq := h.steps_eq.symm
  pushes_eq := h.pushes_eq.symm
  won_eq := h.won_eq.symm

/-- **A move is allowed in the turned direction**, and will do the turned things. -/
theorem plan?_eq_some (h : w.Turned σ v) (hw : w.Contained) (hp : w.plan? d = some p) :
    v.plan? (σ.direction d) = some (σ.plan w.field.size p) := by
  obtain ⟨origin, next, hmole, hnext, hfloor, hrest⟩ := plan?_eq_some_iff.mp hp
  have horigin : origin ∈ w.field.size := hw.lawful.placed.mole_walkable origin hmole
  have hin : next ∈ w.field.size := hw.charted.floor_mem next hfloor
  refine plan?_eq_some_iff.mpr ⟨_, _, ?_, (Symmetry.step?_cell horigin hin).mpr hnext,
    (h.mem_floor_iff next).mpr hfloor, ?_⟩
  · rw [h.layout.actors.mole_eq, hmole]
    rfl
  · rcases hrest with ⟨hfree, rfl⟩ | ⟨hbox, beyond, hbeyond, hfloor', hfree, rfl⟩
    · exact .inl ⟨fun hbox ↦ hfree ((h.layout.actors.mem_boxes_iff next).mp hbox), rfl⟩
    · have hin' : beyond ∈ w.field.size := hw.charted.floor_mem beyond hfloor'
      exact .inr ⟨(h.layout.actors.mem_boxes_iff next).mpr hbox, _,
        (Symmetry.step?_cell hin hin').mpr hbeyond, (h.mem_floor_iff beyond).mpr hfloor',
        fun hbox' ↦ hfree ((h.layout.actors.mem_boxes_iff beyond).mp hbox'), rfl⟩

theorem actorsAfter (h : w.Turned σ v) (hw : w.Contained) (hv : v.Contained)
    (hp : w.plan? d = some p) : (w.actorsAfter p).Turned σ w.field.size
      (v.actorsAfter (σ.plan w.field.size p)) := by
  refine ⟨rfl, fun c ↦ ?_⟩
  have hchange := boxChange?_actorsAfter hp hw.lawful.placed.boxes_nodup
  have hchange' := boxChange?_actorsAfter (h.plan?_eq_some hw hp) hv.lawful.placed.boxes_nodup
  cases hpush : p.push with
  | none =>
    rw [World.actorsAfter, World.actorsAfter, Symmetry.plan, hpush]
    exact h.layout.actors.mem_boxes_iff c
  | some push =>
    rw [Symmetry.plan, hpush] at hchange'
    rw [hpush] at hchange
    rw [Symmetry.plan, hpush, Actors.mem_boxes_iff_of_boxChange? hchange,
      Actors.mem_boxes_iff_of_boxChange? hchange', h.layout.actors.mem_boxes_iff]
    simp [Symmetry.push]

/-- What is found of the targets is news to both worlds or to none. -/
theorem snd_judge {s : Size} (hlayout : w.toLayout.Turned σ v.toLayout) (hwon : v.won = w.won)
    (hsteps : v.steps = w.steps) : v.judge.2 = w.judge.2.map (σ.event s) := by
  rw [judge, judge, hlayout.covered_eq, hwon, hsteps]
  dsimp only
  split <;> rfl

/-- **Turned worlds go to turned moments alike**, and tell the turned things of it. -/
theorem travel (h : w.Turned σ v) (ha : a.Turned σ w.field.size a')
    (hhistory : history.Related (Actors.Turned σ w.field.size) history') (count : Nat → Nat) :
    (w.travel count a history).1.Turned σ (v.travel count a' history').1 ∧
      (v.travel count a' history').2 =
        (w.travel count a history).2.map (σ.event w.field.size) := by
  have hlayout : Layout.Turned σ { w.toLayout with actors := a } { v.toLayout with actors := a' } :=
    ⟨h.layout.size_eq, h.layout.at?_eq, ha, h.layout.mem_targets_iff⟩
  have hcovered := hlayout.covered_eq
  have hsame := h.layout.actors.sameBoxes_eq ha
  refine ⟨⟨hlayout, h.mem_floor_iff, hhistory, ?_, ?_, hcovered⟩, ?_⟩
  · exact congrArg count h.steps_eq
  · simp only [World.travel, judge, hsame, h.pushes_eq]
  · have hmoved : σ.event w.field.size
        (.moleMoved ⟨w.actors.mole, a.mole, w.actors.boxChange? a⟩) =
          .moleMoved ⟨v.actors.mole, a'.mole, v.actors.boxChange? a'⟩ := by
      rw [Symmetry.event, ← h.layout.actors.mole_eq, ← ha.mole_eq,
        ← h.layout.actors.boxChange?_eq ha]
    exact congrArg₂ List.cons hmoved.symm
      (snd_judge hlayout h.won_eq (congrArg count h.steps_eq))

/-- A move of one world is made by the other as the turned move. -/
theorem commit (h : w.Turned σ v) (hw : w.Contained) (hv : v.Contained)
    (hp : w.plan? d = some p) :
    (w.commit p).1.Turned σ (v.commit (σ.plan w.field.size p)).1 ∧
      (v.commit (σ.plan w.field.size p)).2 =
        (w.commit p).2.map (σ.event w.field.size) := by
  obtain ⟨hstarted, hstarted'⟩ := h.history.isEmpty_eq
  have ha := h.actorsAfter hw hv hp
  rw [commit_eq_travel_of_started hp hw.lawful.placed.boxes_nodup hstarted,
    commit_eq_travel_of_started (h.plan?_eq_some hw hp) hv.lawful.placed.boxes_nodup hstarted']
  exact h.travel ha (h.history.add ha) countUp

/-- **What one world allows, the other allows turned**, and both are turned afterwards. -/
theorem play?_eq_some (h : w.Turned σ v) (hw : w.Contained) (hv : v.Contained) {q : Play}
    {r : World × List Event} (hr : w.play? q = some r) :
    ∃ r', v.play? (σ.play q) = some r' ∧ r.1.Turned σ r'.1 ∧
      r'.2 = r.2.map (σ.event w.field.size) := by
  rcases play?_cases hr with ⟨d, p, rfl, hp, rfl⟩ | ⟨a, history, rfl, hundo, rfl⟩ |
    ⟨a, history, rfl, hredo, rfl⟩
  · refine ⟨_, ?_, h.commit hw hv hp⟩
    rw [Symmetry.play, World.play?, move?, h.plan?_eq_some hw hp]
    rfl
  · obtain ⟨a', history', hundo', ha, hhistory⟩ := h.history.undo? hundo
    refine ⟨_, ?_, h.travel ha hhistory countDown⟩
    rw [Symmetry.play, World.play?, World.undo?, hundo']
    rfl
  · obtain ⟨a', history', hredo', ha, hhistory⟩ := h.history.redo? hredo
    refine ⟨_, ?_, h.travel ha hhistory countUp⟩
    rw [Symmetry.play, World.play?, World.redo?, hredo']
    rfl

/-- A play and the turned play succeed or fail together, and tell the turned things. -/
theorem apply (h : w.Turned σ v) (hw : w.Contained) (hv : v.Contained) (q : Play) :
    (v.play? (σ.play q)).isSome = (w.play? q).isSome ∧
      (w.apply q.command).1.Turned σ (v.apply (σ.play q).command).1 ∧
        (v.apply (σ.play q).command).2 = (w.apply q.command).2.map (σ.event w.field.size) := by
  cases hr : w.play? q with
  | some r =>
    obtain ⟨r', hr', hturned, hevents⟩ := h.play?_eq_some hw hv hr
    rw [apply_play, apply_play, hr, hr']
    exact ⟨rfl, hturned, hevents⟩
  | none =>
    have hr' : v.play? (σ.play q) = none := by
      rw [Option.eq_none_iff_forall_ne_some]
      intro r' hr'
      -- What the turned world allows, the world itself allows turned back.
      obtain ⟨r, hback, -⟩ := h.symm.play?_eq_some hv hw hr'
      rw [σ.play_play, hr] at hback
      cases hback
    rw [apply_play, apply_play, hr, hr']
    exact ⟨rfl, h, rfl⟩

/-- **Turned worlds stay turned** while a script is played in one and the turned script in the
other. -/
theorem play (h : w.Turned σ v) (hw : w.Contained) (hv : v.Contained) (script : List Play) :
    (w.play script).1.Turned σ (v.play (script.map σ.play)).1 ∧
      (w.play script).1.Contained ∧ (v.play (script.map σ.play)).1.Contained := by
  induction script generalizing w v with
  | nil => exact ⟨h, hw, hv⟩
  | cons q rest ih => exact ih (h.apply hw hv q).2.1 (hw.play q) (hv.play _)

end World.Turned

/-! ## Symmetric games -/

/-- Turned layouts are put into play as turned worlds. -/
theorem World.turned_install {σ : Symmetry} {l k : Layout} (h : l.Turned σ k)
    (hl : l.field.Complete) (hk : k.field.Complete) (hfits : l.field.size.FitsWord)
    (u u' : World) : (u.install l).1.Turned σ (u'.install k).1 where
  layout := h
  mem_floor_iff c := by
    have hfits' : k.field.size.FitsWord := by
      rwa [h.size_eq, Size.FitsWord, σ.area_size]
    show _ ∈ k.field.cellsOf .floor ↔ c ∈ l.field.cellsOf .floor
    rw [Field.mem_cellsOf_floor_iff hk hfits', Field.mem_cellsOf_floor_iff hl hfits,
      Field.IsFloor, Field.IsFloor, ← h.at?_eq]
    rfl
  history := .start h.actors
  steps_eq := rfl
  pushes_eq := rfl
  won_eq := h.covered_eq

namespace World

/-- Rectangular rows and the turned rows are put into play as turned worlds, unless their sides are
too long for the coordinates. -/
theorem exists_turned_install (σ : Symmetry) {rows : List (List Char)} {s : Size}
    (h : IsRectangle s.width.toNat s.height.toNat rows) (hs : s.isEmpty = false)
    (hmole : rows.flatten.count 'M' ≤ 1) (hfits : s.FitsWord) (u u' : World) :
    ∃ l k, Layout.ofRows rows = .ok l ∧ Layout.ofRows (σ.rows rows) = .ok k ∧
      l.field.size = s ∧ (u.install l).1.Turned σ (u'.install k).1 ∧
        (u.install l).1.Contained ∧ (u'.install k).1.Contained := by
  obtain ⟨l, k, hl, hk, hsize, hturned⟩ := Layout.exists_turned h hs hmole σ
  have hlayout : (LevelSource.rows rows).layout = .ok l := hl
  have hlayout' : (LevelSource.rows (σ.rows rows)).layout = .ok k := hk
  have hcontained := Contained.install hlayout u
  have hcontained' := Contained.install hlayout' u'
  exact ⟨l, k, hl, hk, hsize, turned_install hturned hcontained.charted.complete
    hcontained'.charted.complete (hsize ▸ hfits) u u', hcontained, hcontained'⟩

/-- **The rules have no preferred direction.**

A level of equally long rows, with cells, one mole at most, and no more cells than words can number,
is turned, and the turned level is loaded wherever it was loaded, in whatever form the two come.

* If a side of the level is too long for the coordinates, neither is loaded.
* Otherwise both are, and whatever script is then played in one world, and turned in the other, the
  level text of the one is the turned text of the other.  The counters agree, and so do the verdict
  on the targets and what can be taken back and made again.  The next play succeeds in both worlds
  or in neither, and what is told of it in the one is told turned in the other. -/
theorem play_turned (σ : Symmetry) {rows : List (List Char)} {width : Nat}
    (hne : rows ≠ []) (hwidth : 0 < width) (hlength : ∀ row ∈ rows, row.length = width)
    (hmole : rows.flatten.count 'M' ≤ 1) (hcells : width * rows.length ≤ UInt32.size)
    {level level' : LevelSource} (hlevel : level.rows? = .ok rows)
    (hlevel' : level'.rows? = .ok (σ.rows rows)) (u u' : World) :
    (width = UInt32.size ∨ rows.length = UInt32.size) ∧
        u.loadFrom level = .error .empty ∧ u'.loadFrom level' = .error .empty ∨
      ∃ w v events events', u.loadFrom level = .ok (w, events) ∧
        u'.loadFrom level' = .ok (v, events') ∧ v.field.size = σ.size w.field.size ∧
        ∀ script : List Play,
          let a := (w.play script).1
          let b := (v.play (script.map σ.play)).1
          b.text = σ.text a.text ∧ b.steps = a.steps ∧ b.pushes = a.pushes ∧ b.won = a.won ∧
            b.canUndo = a.canUndo ∧ b.canRedo = a.canRedo ∧
            ∀ q : Play, (b.play? (σ.play q)).isSome = (a.play? q).isSome ∧
              (b.apply (σ.play q).command).2 =
                (a.apply q.command).2.map (σ.event w.field.size) := by
  have hrectangle : IsRectangle width rows.length rows := ⟨rfl, hlength⟩
  have hheight : 0 < rows.length := List.length_pos_iff.mpr hne
  rw [loadFrom_eq, loadFrom_eq, LevelSource.layout_of_rows? hlevel,
    LevelSource.layout_of_rows? hlevel']
  by_cases hfits : width < UInt32.size ∧ rows.length < UInt32.size
  · refine .inr ?_
    let s : Size := ⟨UInt32.ofNat width, UInt32.ofNat rows.length⟩
    have hs : s.width.toNat = width ∧ s.height.toNat = rows.length :=
      ⟨UInt32.toNat_ofNat_of_lt' hfits.1, UInt32.toNat_ofNat_of_lt' hfits.2⟩
    have hnonempty : s.isEmpty = false := by
      rw [Size.isEmpty_eq_false_iff, hs.1, hs.2]
      exact ⟨hwidth, hheight⟩
    have hsized : IsRectangle s.width.toNat s.height.toNat rows := by
      rwa [hs.1, hs.2]
    have hword : s.FitsWord := by
      rwa [Size.FitsWord, Size.area, hs.1, hs.2]
    obtain ⟨l, k, hl, hk, hsize, hturned, hw, hv⟩ :=
      exists_turned_install σ hsized hnonempty hmole hword u u'
    refine ⟨_, _, _, _, congrArg (Except.map _) hl, congrArg (Except.map _) hk,
      hturned.layout.size_eq, fun script ↦ ?_⟩
    obtain ⟨hplayed, ha, hb⟩ := hturned.play hw hv script
    have hfield : ((u.install l).1.play script).1.field.size = (u.install l).1.field.size :=
      congrArg Field.size ((u.install l).1.script_frame script).1
    have hsized : ((u.install l).1.play script).1.field.size = s := hfield.trans hsize
    refine ⟨hplayed.layout.text_eq (hsized ▸ hnonempty), hplayed.steps_eq, hplayed.pushes_eq,
      hplayed.won_eq, hplayed.history.canUndo_eq, hplayed.history.canRedo_eq, fun q ↦ ?_⟩
    obtain ⟨hallowed, -, hevents⟩ := hplayed.apply ha hb q
    rw [hfield] at hevents
    exact ⟨hallowed, hevents⟩
  · have hlong : UInt32.size ≤ width ∨ UInt32.size ≤ rows.length := by omega
    have hle : width ≤ UInt32.size := (Nat.le_mul_of_pos_right _ hheight).trans hcells
    have hle' : rows.length ≤ UInt32.size := (Nat.le_mul_of_pos_left _ hwidth).trans hcells
    rw [Layout.ofRows_eq_error hrectangle hheight hlong,
      Layout.ofRows_rows_eq_error hrectangle hwidth hheight hlong]
    exact .inl ⟨by omega, rfl, rfl⟩

/-- A level of two rows is turned into one of three, which comes as bytes.  The mole pushes the box
to the right in the one, and down in the other. -/
theorem play_turned_corner :
    let rows := [['M', 'B', 'T'], ['F', 'W', 'F']]
    let turned : List UInt8 := [77, 70, 10, 66, 87, 10, 84, 70, 10]
    (rows ≠ [] ∧ 0 < 3 ∧ (∀ row ∈ rows, row.length = 3) ∧ rows.flatten.count 'M' ≤ 1 ∧
      3 * rows.length ≤ UInt32.size ∧ (LevelSource.rows rows).rows? = .ok rows ∧
      (LevelSource.bytes turned).rows? = .ok (Symmetry.transpose.rows rows)) ∧
    ∃ w v, ofRows rows = .ok w ∧ ofBytes turned = .ok v ∧
      (w.play [.move .right]).1.text = "FMA\nFWF\n".toList ∧
      (v.play [.move .down]).1.text = Symmetry.transpose.text "FMA\nFWF\n".toList ∧
      (w.apply (.move .right)).2 = [.moleMoved ⟨some ⟨0, 0⟩, some ⟨1, 0⟩,
        some ⟨⟨1, 0⟩, ⟨2, 0⟩⟩⟩, .solved 1] ∧
      (v.apply (.move .down)).2 =
        (w.apply (.move .right)).2.map (Symmetry.transpose.event w.field.size) := by
  intro rows turned
  have hrows : (LevelSource.rows rows).rows? = .ok rows := rfl
  have hturned : (LevelSource.bytes turned).rows? = .ok (Symmetry.transpose.rows rows) := by
    decide +kernel
  have hlength : ∀ row ∈ rows, row.length = 3 := by decide
  have hcells : 3 * rows.length ≤ UInt32.size := by decide
  obtain ⟨x, hx, htext, hevents⟩ : ∃ x, ofRows rows = .ok x ∧
      (x.play [.move .right]).1.text = "FMA\nFWF\n".toList ∧
      (x.apply (.move .right)).2 = [.moleMoved ⟨some ⟨0, 0⟩, some ⟨1, 0⟩,
        some ⟨⟨1, 0⟩, ⟨2, 0⟩⟩⟩, .solved 1] := ⟨_, rfl, by decide +kernel, by decide +kernel⟩
  refine ⟨⟨by decide, by decide, hlength, by decide, hcells, hrows, hturned⟩, ?_⟩
  rcases play_turned .transpose (by decide) (by decide) hlength (by decide) hcells hrows hturned
    {} {} with ⟨hlong, -⟩ | ⟨w, v, events, events', hw, hv, -, hplay⟩
  · exact absurd hlong (by decide)
  · have hload : ofRows rows = .ok w := congrArg (Except.map Prod.fst) hw
    cases hx.symm.trans hload
    obtain ⟨hturnedText, -⟩ := hplay [.move .right]
    obtain ⟨-, -, -, -, -, -, hnext⟩ := hplay []
    refine ⟨x, v, hx, congrArg (Except.map Prod.fst) hv, htext, ?_, hevents,
      (hnext (.move .right)).2⟩
    rw [← htext]
    exact hturnedText

end World

end MolePuzzle
