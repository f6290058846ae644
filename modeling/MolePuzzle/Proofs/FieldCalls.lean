import Mathlib.Data.List.Infix
import MolePuzzle.Grid.Field

/-!
# What a field shows

A field is an array with an entry for each cell, and every change of its size moves the entries to
other places.  Nothing of this can be seen.  `Field.after_grid` describes the field that calls lead
to by the calls alone: its size is the latest that was asked for, and each of its cells shows what
was last set on it since it came to lie in the field, or void.

When the size changes, the cells that the old and the new field have in common are carried over one
by one, from the one array to the other (`Field.carriedOver?`).  This is done without going beyond
either of them, and leads to the field that `Field.setSize` describes.
-/

set_option autoImplicit false

namespace MolePuzzle

/-! ## Cells in common -/

/-- The size whose cells two sizes have in common. -/
def Size.meet (s t : Size) : Size := ⟨min s.width t.width, min s.height t.height⟩

theorem Size.mem_meet {s t : Size} {c : Coord} : c ∈ s.meet t ↔ c ∈ s ∧ c ∈ t := by
  simp only [meet, mem_iff, UInt32.lt_iff_toNat_lt, UInt32.toNat_min]
  omega

namespace Field

variable {f g : Field} {c e : Coord} {s : Size} {terrain : Terrain}

/-! ## Carrying cells over -/

/-- Carries the terrain of a cell over to another field, if the cell lies in both.  There is no
result if one of the arrays has no entry for it. -/
def carryOver? (f g : Field) (c : Coord) : Option Field :=
  if c ∈ f.size ∧ c ∈ g.size then
    match f.cells[f.size.index c]? with
    | none => none
    | some terrain =>
      if g.size.index c < g.cells.size then
        some { g with cells := g.cells.setIfInBounds (g.size.index c) terrain }
      else none
  else some g

/-- A field of another size, to which the cells in common are carried over, row by row. -/
def carriedOver? (f : Field) (s : Size) : Option Field :=
  if s.isEmpty then some f
  else (f.size.meet s).coords.foldlM f.carryOver? ⟨s, .replicate s.area .void⟩

/-- A cell in common is carried over by setting its terrain. -/
theorem exists_carryOver? (hf : f.Complete) (hg : g.Complete) (hc : c ∈ f.size) (hc' : c ∈ g.size) :
    ∃ terrain, f.at? c = some terrain ∧ f.carryOver? g c = some (g.set c terrain).2 := by
  obtain ⟨terrain, hat⟩ := exists_at?_eq_some hf hc
  have hentry : f.cells[f.size.index c]? = some terrain := by rwa [at?, if_pos hc] at hat
  have hplace : g.size.index c < g.cells.size := hg ▸ Size.index_lt_area hc'
  refine ⟨terrain, hat, ?_⟩
  rw [carryOver?, if_pos ⟨hc, hc'⟩, hentry]
  dsimp only
  rw [if_pos hplace, set, if_pos hc']

/-- **Cells are carried over one by one.**  The induction is on the cells that are still to come. -/
theorem exists_foldlM_carryOver? (hf : f.Complete) (hg : g.Complete) {cells : List Coord}
    (hcells : ∀ c ∈ cells, c ∈ f.size ∧ c ∈ g.size) :
    ∃ g', cells.foldlM f.carryOver? g = some g' ∧ g'.size = g.size ∧ g'.Complete ∧
      ∀ c, g'.at? c = if c ∈ cells then f.at? c else g.at? c := by
  induction cells generalizing g with
  | nil => exact ⟨g, rfl, rfl, hg, by simp⟩
  | cons c rest ih =>
    obtain ⟨⟨hc, hc'⟩, hrest⟩ := List.forall_mem_cons.mp hcells
    obtain ⟨terrain, hat, hcarry⟩ := exists_carryOver? hf hg hc hc'
    obtain ⟨g', hfold, hsize, hcomplete, hshows⟩ :=
      ih (complete_set hg c terrain) (by simpa using hrest)
    refine ⟨g', ?_, hsize.trans (size_set g c terrain), hcomplete, fun e ↦ ?_⟩
    · rw [List.foldlM_cons, hcarry]
      exact hfold
    · rw [hshows, at?_set hg hc']
      by_cases he : e = c
      · simp [he, hat]
      · simp [he]

/-- **Changing the size carries the cells in common over**, and never goes beyond an array. -/
theorem carriedOver?_eq (hf : f.Complete) (s : Size) : f.carriedOver? s = some (f.setSize s) := by
  rw [carriedOver?]
  split
  · rename_i hempty
    rw [setSize, if_pos hempty]
  · rename_i hcells
    have hcells : s.isEmpty = false := Bool.not_eq_true _ ▸ hcells
    let fresh : Field := ⟨s, .replicate s.area .void⟩
    have hfresh : fresh.Complete := Array.size_replicate
    have hcommon : ∀ c ∈ (f.size.meet s).coords, c ∈ f.size ∧ c ∈ fresh.size :=
      fun c hc ↦ Size.mem_meet.mp (Size.mem_coords.mp hc)
    obtain ⟨g, hfold, hsize, hcomplete, hshows⟩ := exists_foldlM_carryOver? hf hfresh hcommon
    rw [hfold, eq_of_at?_eq hcomplete (complete_setSize hf s)]
    · rw [hsize, size_setSize_of_cells f hcells]
    · intro c
      rw [hshows, at?_setSize f hcells]
      by_cases hc : c ∈ s
      · by_cases hold : c ∈ f.size
        · obtain ⟨terrain, hat⟩ := exists_at?_eq_some hf hold
          simp [Size.mem_meet, hc, hold, hat]
        · have hvoid : fresh.at? c = some .void := by
            rw [at?, if_pos hc]
            simp [fresh, Size.index_lt_area hc]
          simp [Size.mem_meet, hc, hold, hvoid, (at?_eq_none_iff hf).mpr hold]
      · have hnone : fresh.at? c = none := if_neg hc
        simp [Size.mem_meet, hc, hnone]

/-! ## Calls -/

/-- What can be asked of a field. -/
inductive Call where
  | setSize (s : Size)
  | set (c : Coord) (terrain : Terrain)
  deriving DecidableEq, Repr

/-- Does what it is asked for. -/
def call (f : Field) : Call → Field
  | .setSize s => f.setSize s
  | .set c terrain => (f.set c terrain).2

/-- The field that calls lead to, one after another, from the one that has never had a size. -/
def after (calls : List Call) : Field := calls.foldl call {}

variable {calls early late : List Call} {k : Call}

theorem after_concat (calls : List Call) (k : Call) : after (calls ++ [k]) = (after calls).call k :=
  List.foldl_append

theorem complete_call (h : f.Complete) (k : Call) : (f.call k).Complete := by
  cases k with
  | setSize s => exact complete_setSize h s
  | set c terrain => exact complete_set h c terrain

theorem complete_after (calls : List Call) : (after calls).Complete := by
  induction calls using List.reverseRecOn with
  | nil => exact complete_default
  | append_singleton early k ih =>
    rw [after_concat]
    exact complete_call ih k

/-! ## The latest call -/

/-- What the latest call tells, of those that tell anything. -/
def latest {α : Type} (tells : Call → Option α) (calls : List Call) : Option α :=
  (calls.filterMap tells).getLast?

theorem latest_concat {α : Type} (tells : Call → Option α) (calls : List Call) (k : Call) :
    latest tells (calls ++ [k]) = (tells k).or (latest tells calls) := by
  rw [latest, latest, List.filterMap_append, List.getLast?_append]
  cases hk : tells k <;> simp [hk]

namespace Call

/-- The size that is asked for.  A size without cells is no extent for a field. -/
def size? : Call → Option Size
  | setSize s => if s.isEmpty then none else some s
  | set _ _ => none

/-- The terrain that is set on a cell. -/
def terrain? (c : Coord) : Call → Option Terrain
  | setSize _ => none
  | set e terrain => if e = c then some terrain else none

end Call

theorem size_call (f : Field) (k : Call) : (f.call k).size = k.size?.getD f.size := by
  cases k with
  | setSize s =>
    rw [call, size_setSize, Call.size?]
    split <;> rfl
  | set c terrain => exact size_set f c terrain

/-- **The size is the latest** that was asked for. -/
theorem size_after (calls : List Call) :
    (after calls).size = (latest Call.size? calls).getD {} := by
  induction calls using List.reverseRecOn with
  | nil => rfl
  | append_singleton early k ih =>
    rw [after_concat, size_call, latest_concat, ih]
    cases k.size? <;> rfl

/-- **One call** changes what is seen on a cell that stays in the field only by setting it. -/
theorem at?_call (h : f.Complete) (hc : c ∈ f.size) (hc' : c ∈ (f.call k).size) :
    (f.call k).at? c = (k.terrain? c).or (f.at? c) := by
  cases k with
  | setSize s =>
    rw [call] at hc' ⊢
    rw [at?_setSize_of_complete h, if_pos hc', if_pos hc]
    rfl
  | set e terrain =>
    rw [call, Call.terrain?]
    by_cases he : e ∈ f.size
    · rw [at?_set h he]
      by_cases hce : e = c
      · rw [if_pos hce.symm, if_pos hce, Option.some_or]
      · rw [if_neg (Ne.symm hce), if_neg hce, Option.none_or]
    · have hce : e ≠ c := fun hce ↦ he (hce ▸ hc)
      rw [set_of_not_mem he, if_neg hce, Option.none_or]

/-! ## Since a cell came to lie in the field -/

/-- The cell came to lie in the field when the size was asked for after the early calls, and has
been there ever since, over the late ones. -/
structure Since (c : Coord) (early : List Call) (s : Size) (late : List Call) : Prop where
  not_mem : c ∉ (after early).size
  mem : ∀ part, part <+: late → c ∈ (after (early ++ .setSize s :: part)).size

instance (c : Coord) (early : List Call) (s : Size) (late : List Call) :
    Decidable (Since c early s late) :=
  decidable_of_iff (c ∉ (after early).size ∧
      ∀ part ∈ late.inits, c ∈ (after (early ++ .setSize s :: part)).size)
    ⟨fun h ↦ ⟨h.1, fun part hpart ↦ h.2 part ((List.mem_inits ..).mpr hpart)⟩,
      fun h ↦ ⟨h.not_mem, fun part hpart ↦ h.mem part ((List.mem_inits ..).mp hpart)⟩⟩

theorem Since.concat (h : Since c early s late)
    (hc : c ∈ (after (early ++ .setSize s :: (late ++ [k]))).size) :
    Since c early s (late ++ [k]) where
  not_mem := h.not_mem
  mem part hpart := by
    rcases List.prefix_concat_iff.mp hpart with rfl | hpart
    · exact hc
    · exact h.mem part hpart

/-- A cell of the field has come to lie in it at some time. -/
theorem exists_since (hc : c ∈ (after calls).size) :
    ∃ early s late, calls = early ++ .setSize s :: late ∧ Since c early s late := by
  induction calls using List.reverseRecOn with
  | nil => exact absurd hc (by simp [after, Size.mem_iff])
  | append_singleton calls k ih =>
    by_cases hbefore : c ∈ (after calls).size
    · obtain ⟨early, s, late, rfl, hsince⟩ := ih hbefore
      refine ⟨early, s, late ++ [k], by simp, hsince.concat ?_⟩
      simpa using hc
    · -- Only a call for a size can have brought the cell in.
      cases k with
      | setSize s =>
        refine ⟨calls, s, [], rfl, hbefore, fun part hpart ↦ ?_⟩
        rwa [List.prefix_nil.mp hpart]
      | set e terrain =>
        rw [after_concat, call, size_set] at hc
        exact absurd hc hbefore

/-- **A cell shows what was last set on it** since it came to lie in the field.  The induction is on
the calls since then, from their end. -/
theorem at?_of_since (h : Since c early s late) :
    (after (early ++ .setSize s :: late)).at? c =
      some ((latest (Call.terrain? c) late).getD .void) := by
  induction late using List.reverseRecOn with
  | nil =>
    have hc := h.mem [] List.nil_prefix
    rw [after_concat, call] at hc ⊢
    rw [at?_setSize_of_complete (complete_after early), if_pos hc, if_neg h.not_mem]
    rfl
  | append_singleton late k ih =>
    have hbefore : Since c early s late :=
      ⟨h.not_mem, fun part hpart ↦ h.mem part (hpart.trans (List.prefix_append late [k]))⟩
    have hc := hbefore.mem late List.prefix_rfl
    have hc' := h.mem _ List.prefix_rfl
    have hsplit : early ++ .setSize s :: (late ++ [k]) = (early ++ .setSize s :: late) ++ [k] := by
      simp
    rw [hsplit, after_concat] at hc' ⊢
    rw [at?_call (complete_after _) hc hc', ih hbefore, latest_concat]
    cases k.terrain? c <;> rfl

/-! ## The whole -/

/-- **A field is a grid.**  Let calls be made of a field that has never had a size.

* Its array has an entry for each cell, so that every cell has its place in it, and changing the
  size goes beyond neither the old array nor the new one.
* The size is the latest that was asked for, and nothing is found outside of it.
* A cell shows what was last set on it since it came to lie in the field, or void if nothing was.
* Setting succeeds exactly inside the field, and changes no other cell.
* A size without a column or without a row changes nothing. -/
theorem after_grid (calls : List Call) :
    let f := after calls
    f.cells.size = f.size.width.toNat * f.size.height.toNat ∧
      (∀ c ∈ f.size, f.size.index c < f.cells.size) ∧
      (∀ s, f.carriedOver? s = some (f.setSize s)) ∧
      f.size = (latest Call.size? calls).getD {} ∧
      (∀ c, f.at? c = none ↔ c ∉ f.size) ∧
      (∀ c terrain, f.at? c = some terrain ↔
        ∃ early s late, calls = early ++ .setSize s :: late ∧ Since c early s late ∧
          terrain = (latest (Call.terrain? c) late).getD .void) ∧
      (∀ c terrain, ((f.set c terrain).1 = true ↔ c ∈ f.size) ∧
        (f.set c terrain).2.size = f.size ∧
        ∀ e, e ≠ c → (f.set c terrain).2.at? e = f.at? e) ∧
      ∀ s : Size, s.width = 0 ∨ s.height = 0 → f.setSize s = f := by
  intro f
  have hf : f.Complete := complete_after calls
  refine ⟨hf, fun c hc ↦ hf ▸ Size.index_lt_area hc, carriedOver?_eq hf, size_after calls,
    fun c ↦ at?_eq_none_iff hf, fun c terrain ↦ ⟨fun hat ↦ ?_, ?_⟩, fun c terrain ↦ ?_,
    fun s hs ↦ ?_⟩
  · obtain ⟨early, s, late, hcalls, hsince⟩ := exists_since (mem_size_of_at? hat)
    subst hcalls
    exact ⟨early, s, late, rfl, hsince, Option.some_inj.mp (hat.symm.trans (at?_of_since hsince))⟩
  · rintro ⟨early, s, late, rfl, hsince, rfl⟩
    exact at?_of_since hsince
  · exact ⟨fst_set_iff, size_set f c terrain, fun e he ↦ at?_set_of_ne hf he terrain⟩
  · have hempty : s.isEmpty = true := by simpa [Size.isEmpty] using hs
    exact if_pos hempty

/-- A field of two columns and three rows gets three columns and two rows.  The cell that it keeps
shows what was set on it, and the one that it loses is void when it comes back with a third row. -/
theorem after_grid_regrown :
    let sizes : List Call := [.setSize ⟨2, 3⟩, .set ⟨1, 1⟩ .wall, .set ⟨1, 2⟩ .wall]
    let calls : List Call := sizes ++ [.setSize ⟨3, 2⟩, .setSize ⟨3, 3⟩, .setSize ⟨0, 9⟩]
    Since ⟨1, 2⟩ (sizes ++ [.setSize ⟨3, 2⟩]) ⟨3, 3⟩ [.setSize ⟨0, 9⟩] ∧
      (after calls).at? ⟨1, 2⟩ = some .void ∧ (after calls).at? ⟨1, 1⟩ = some .wall ∧
      (after calls).setSize ⟨9, 0⟩ = after calls := by
  intro sizes calls
  obtain ⟨-, -, -, -, -, hshows, -, hstay⟩ := after_grid calls
  have hkept : Since ⟨1, 1⟩ [] ⟨2, 3⟩ (calls.drop 1) := by decide
  have hback : Since ⟨1, 2⟩ (sizes ++ [.setSize ⟨3, 2⟩]) ⟨3, 3⟩ [.setSize ⟨0, 9⟩] := by decide
  exact ⟨hback, (hshows _ _).mpr ⟨sizes ++ [.setSize ⟨3, 2⟩], _, _, rfl, hback, by decide⟩,
    (hshows _ _).mpr ⟨[], _, _, rfl, hkept, by decide⟩, hstay _ (.inr rfl)⟩

end Field

end MolePuzzle
