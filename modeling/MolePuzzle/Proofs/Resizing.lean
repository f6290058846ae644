import MolePuzzle.Proofs.Reachable

/-!
# What a resize leaves

A resize lays the field out anew, with rows of another length, and goes through the actors and the
targets.  What it amounts to is that whatever falls outside is dropped, and nothing else
(`World.LeftOn`): it may make the field wider and lower at once, the request may be for no cells at
all, and commands may have set boxes far away from the field.

So it makes no difference whether the field shrinks at once or on the way over a larger size
(`Layout.resized_resized`), and this is all that moves depend on.
-/

set_option autoImplicit false

namespace MolePuzzle

namespace Size

/-- A size is at most another if it has no more columns and no more rows. -/
instance : LE Size := ⟨fun s t ↦ s.width ≤ t.width ∧ s.height ≤ t.height⟩

theorem le_iff {s t : Size} : s ≤ t ↔ s.width ≤ t.width ∧ s.height ≤ t.height := Iff.rfl

instance (s t : Size) : Decidable (s ≤ t) := decidable_of_iff _ le_iff.symm

variable {s t : Size}

theorem mem_of_le (h : s ≤ t) {c : Coord} (hc : c ∈ s) : c ∈ t :=
  ⟨UInt32.lt_of_lt_of_le hc.1 h.1, UInt32.lt_of_lt_of_le hc.2 h.2⟩

theorem isEmpty_of_le (h : s ≤ t) (hs : s.isEmpty = false) : t.isEmpty = false := by
  obtain ⟨hwidth, hheight⟩ := h
  rw [UInt32.le_iff_toNat_le] at hwidth hheight
  rw [isEmpty_eq_false_iff] at hs ⊢
  omega

end Size

/-! ## The terrain -/

namespace Field

/-- What a smaller size keeps of the terrain is kept by all sizes in between. -/
theorem setSize_setSize (f : Field) {s t : Size} (hs : s.isEmpty = false) (hle : s ≤ t) :
    (f.setSize t).setSize s = f.setSize s := by
  have hlaid : ∀ g : Field, g.setSize s = ofFn s fun c ↦ (g.at? c).getD .void :=
    fun _ ↦ if_neg (by simp [hs])
  rw [hlaid, hlaid]
  refine ofFn_congr fun c hc ↦ ?_
  rw [at?_setSize f (Size.isEmpty_of_le hle hs), if_pos (Size.mem_of_le hle hc), Option.getD_some]

end Field

/-! ## The layout -/

/-- Going through cells for a larger size first makes no difference. -/
theorem Size.mem_and_mem_of_le {s t : Size} (hle : s ≤ t) (c : Coord) :
    (decide (c ∈ t) && decide (c ∈ s)) = decide (c ∈ s) := by
  by_cases hc : c ∈ s
  · simp [hc, mem_of_le hle hc]
  · simp [hc]

/-- The layout with a field of another size, and what lies inside of it. -/
def Layout.resized (l : Layout) (s : Size) : Layout where
  field := l.field.setSize s
  actors := l.actors.within (l.field.setSize s).size
  targets := l.targets.filter (· ∈ (l.field.setSize s).size)

/-- **Shrinking on the way over a larger size** comes to the same as shrinking at once. -/
theorem Layout.resized_resized (l : Layout) {s t : Size} (hs : s.isEmpty = false) (hle : s ≤ t) :
    (l.resized t).resized s = l.resized s := by
  have hsize : ∀ f : Field, (f.setSize s).size = s := fun f ↦ f.size_setSize_of_cells hs
  have hsize' := l.field.size_setSize_of_cells (Size.isEmpty_of_le hle hs)
  have hcell := Size.mem_and_mem_of_le hle
  simp only [resized, Actors.within, hsize, hsize', l.field.setSize_setSize hs hle,
    Option.filter_filter, List.filter_filter, hcell, Bool.and_comm (decide (_ ∈ s))]

namespace World

variable {v w : World}

/-! ## One resize -/

/-- What is left of a world on a field of some size, in another world: what lies inside. -/
structure LeftOn (w : World) (s : Size) (v : World) : Prop where
  size_eq : v.field.size = s
  at?_eq : ∀ c, v.field.at? c =
    if c ∈ s then if c ∈ w.field.size then w.field.at? c else some .void else none
  mole_iff : ∀ c, v.actors.mole = some c ↔ w.actors.mole = some c ∧ c ∈ s
  boxes_eq : v.actors.boxes = w.actors.boxes.filter (· ∈ s)
  targets_eq : v.targets = w.targets.filter (· ∈ s)
  name_eq : v.name = w.name
  steps_eq : v.steps = w.steps
  pushes_eq : v.pushes = w.pushes

/-- **A resize leaves what lies inside** the size that the field then has. -/
theorem leftOn_resize (hcomplete : w.field.Complete) (requested : Size) :
    w.LeftOn (w.field.setSize requested).size (w.resize requested).1 := by
  obtain ⟨hname, hsteps, hpushes⟩ := scorecard_eq_iff.mp (scorecard_resize w requested)
  exact {
    size_eq := by rw [field_resize]
    at?_eq c := by rw [field_resize, Field.at?_setSize_of_complete hcomplete]
    mole_iff c := by simp [Actors.within, Option.filter_eq_some_iff]
    boxes_eq := by rw [actors_resize, Actors.within]
    targets_eq := targets_resize w requested
    name_eq := hname
    steps_eq := hsteps
    pushes_eq := hpushes }

/-- A resize that is none is not told of and forgets no moment. -/
theorem resize_of_size_eq {requested : Size}
    (hsize : (w.field.setSize requested).size = w.field.size) :
    (w.resize requested).1.history = w.history ∧ (w.resize requested).2 = [] := by
  rw [history_resize, snd_resize, if_pos hsize.symm, if_pos hsize.symm]
  exact ⟨rfl, rfl⟩

/-- Any other is told of, and a new game starts with what is left. -/
theorem resize_of_size_ne {requested : Size}
    (hsize : (w.field.setSize requested).size ≠ w.field.size) :
    (w.resize requested).1.history = .start (w.resize requested).1.actors ∧
      (w.resize requested).2 = [.fieldResized w.field.size (w.field.setSize requested).size] := by
  rw [history_resize, snd_resize, if_neg hsize.symm, if_neg hsize.symm]
  exact ⟨rfl, rfl⟩

/-! ## Two resizes -/

theorem toLayout_resize (w : World) (s : Size) :
    (w.resize s).1.toLayout = w.toLayout.resized s := by
  rw [resize_eq]
  rfl

theorem toLayout_resize_resize (w : World) {s t : Size} (hs : s.isEmpty = false) (hle : s ≤ t) :
    ((w.resize t).1.resize s).1.toLayout = (w.resize s).1.toLayout := by
  rw [toLayout_resize, toLayout_resize, toLayout_resize, w.toLayout.resized_resized hs hle]

/-- What is planned depends on the actors and on the floor. -/
theorem plan?_congr (hactors : v.actors = w.actors) (hfloor : v.floor = w.floor) (d : Direction) :
    v.plan? d = w.plan? d := by
  rw [plan?, plan?, hactors, hfloor]

theorem canMove_resize_resize (w : World) {s t : Size} (hs : s.isEmpty = false) (hle : s ≤ t)
    (d : Direction) : ((w.resize t).1.resize s).1.canMove d = (w.resize s).1.canMove d := by
  have hactors := congrArg Layout.actors (w.toLayout_resize_resize hs hle)
  have hfloor : ((w.resize t).1.resize s).1.floor = (w.resize s).1.floor := by
    rw [floor_resize, floor_resize, field_resize, w.field.setSize_setSize hs hle]
  rw [canMove, canMove, plan?_congr hactors hfloor]

/-- **A resize drops exactly what falls outside.**  After any commands and levels:

* a request leaves what lies inside the requested size, or inside the present one if the requested
  size is without cells;
* if this is another size, the resize is told of, and there is nothing to take back or to make
  again; otherwise nothing is told, and the remembered moments stay;
* resizing first to a size that is as large or larger in both dimensions comes to the same level,
  with the same moves allowed. -/
theorem leftOn_resize_run (inputs : List Input) :
    let w := (run {} inputs).1
    (∀ requested,
      let s := if requested.isEmpty then w.field.size else requested
      let v := (w.resize requested).1
      let events := (w.resize requested).2
      w.LeftOn s v ∧
        (s ≠ w.field.size → events = [.fieldResized w.field.size s] ∧
          v.history = .start v.actors ∧ v.canUndo = false ∧ v.canRedo = false) ∧
        (s = w.field.size → events = [] ∧ v.history = w.history)) ∧
      ∀ a b : Size, b.isEmpty = false → b ≤ a →
        ((w.resize a).1.resize b).1.toLayout = (w.resize b).1.toLayout ∧
          ∀ d, ((w.resize a).1.resize b).1.canMove d = (w.resize b).1.canMove d := by
  intro w
  have hcomplete : w.field.Complete := (charted_run inputs).complete
  refine ⟨fun requested ↦ ?_, fun a b hcells hle ↦
    ⟨w.toLayout_resize_resize hcells hle, w.canMove_resize_resize hcells hle⟩⟩
  intro s v events
  have hs : (w.field.setSize requested).size = s := w.field.size_setSize requested
  refine ⟨hs ▸ leftOn_resize hcomplete requested, fun hne ↦ ?_, fun heq ↦ ?_⟩
  · obtain ⟨hhistory, hevents⟩ := resize_of_size_ne (hs.symm ▸ hne)
    exact ⟨hs ▸ hevents, hhistory, canUndo_canRedo_of_start hhistory⟩
  · obtain ⟨hhistory, hevents⟩ := resize_of_size_eq (hs.trans heq)
    exact ⟨hevents, hhistory⟩

/-- A box stands outside of the field.  The field gets a row and loses the column with the target;
a request for no columns takes nothing but the box outside away; and the last two columns are lost
in one step or in two. -/
theorem leftOn_resize_run_outside_box :
    let inputs : List Input := [.load (.rows [['M', 'F', 'B', 'T'], ['W', 'F']]),
      .command (.setBox ⟨9, 0⟩ true), .command (.move .right)]
    let w := (run {} inputs).1
    w.actors.boxes = [⟨2, 0⟩, ⟨9, 0⟩] ∧
      (w.LeftOn ⟨3, 3⟩ (w.resize ⟨3, 3⟩).1 ∧
        (w.resize ⟨3, 3⟩).2 = [.fieldResized ⟨4, 2⟩ ⟨3, 3⟩] ∧
        (w.resize ⟨3, 3⟩).1.actors = ⟨some ⟨1, 0⟩, [⟨2, 0⟩]⟩ ∧
        (w.resize ⟨3, 3⟩).1.targets = []) ∧
      (w.LeftOn ⟨4, 2⟩ (w.resize ⟨0, 7⟩).1 ∧ (w.resize ⟨0, 7⟩).2 = [] ∧
        (w.resize ⟨0, 7⟩).1.history = w.history ∧ w.canUndo = true) ∧
      ((w.resize ⟨3, 2⟩).1.resize ⟨2, 2⟩).1.toLayout = (w.resize ⟨2, 2⟩).1.toLayout := by
  intro inputs w
  obtain ⟨hresize, htwice⟩ := leftOn_resize_run inputs
  obtain ⟨hleft, hother, -⟩ := hresize ⟨3, 3⟩
  obtain ⟨hleft', -, hsame⟩ := hresize ⟨0, 7⟩
  obtain ⟨hevents, -⟩ := hother (by decide)
  obtain ⟨hevents', hhistory⟩ := hsame (by decide)
  exact ⟨by decide, ⟨hleft, hevents, by decide, by decide⟩,
    ⟨hleft', hevents', hhistory, by decide⟩, (htwice ⟨3, 2⟩ ⟨2, 2⟩ (by decide) (by decide)).1⟩

end World

end MolePuzzle
