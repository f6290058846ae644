import MolePuzzle.Proofs.BoxChange
import MolePuzzle.Proofs.Symmetry

/-!
# Turned levels

`Actors.Turned` and `Layout.Turned` say that everything has come to lie on the turned cells.  The
boxes and the targets are lists, and they are read row by row, so in the turned layout they are
listed in another order; what is the same is which cells hold them.  All that is seen of a layout
depends on this alone: which box changed its cell (`Actors.Turned.boxChange?_eq`), whether all
targets are covered, and the level text, which is the turned one (`Layout.Turned.text_eq`).

A rectangle of characters with one mole at most is read as a layout, and the turned characters as
the turned one (`Layout.exists_turned`).  With more moles the last one counts, and which one is the
last depends on the reading order.
-/

set_option autoImplicit false

namespace MolePuzzle

/-! ## Turned actors -/

/-- The actors stand on the turned cells.  In which order the boxes are listed is left open. -/
structure Actors.Turned (σ : Symmetry) (s : Size) (a b : Actors) : Prop where
  mole_eq : b.mole = a.mole.map (σ.cell s)
  mem_boxes_iff : ∀ c, σ.cell s c ∈ b.boxes ↔ c ∈ a.boxes

namespace Actors.Turned

variable {σ : Symmetry} {s : Size} {a a' b b' : Actors} {p : Push}

theorem symm (h : a.Turned σ s b) : b.Turned σ (σ.size s) a where
  mole_eq := by
    rw [h.mole_eq, Option.map_map, σ.cell_size]
    cases a.mole <;> simp
  mem_boxes_iff c := by
    rw [σ.cell_size, ← h.mem_boxes_iff, σ.cell_cell]

theorem sameBoxes_eq (ha : a.Turned σ s a') (hb : b.Turned σ s b') :
    a'.sameBoxes b' = a.sameBoxes b := by
  rw [Bool.eq_iff_iff, sameBoxes_iff, sameBoxes_iff, ← σ.forall_cell_iff s]
  simp only [ha.mem_boxes_iff, hb.mem_boxes_iff]

theorem boxChange?_eq_some (ha : a.Turned σ s a') (hb : b.Turned σ s b')
    (h : a.boxChange? b = some p) : a'.boxChange? b' = some (σ.push s p) := by
  obtain ⟨hleft, hright⟩ := boxChange?_eq_some_iff.mp h
  refine boxChange?_eq_some_iff.mpr
    ⟨(σ.forall_cell_iff s).mp fun c ↦ ?_, (σ.forall_cell_iff s).mp fun c ↦ ?_⟩
  · rw [ha.mem_boxes_iff, hb.mem_boxes_iff, hleft, Symmetry.push, Symmetry.cell_inj]
  · rw [ha.mem_boxes_iff, hb.mem_boxes_iff, hright, Symmetry.push, Symmetry.cell_inj]

/-- The box that changed its cell is found again on the turned cells. -/
theorem boxChange?_eq (ha : a.Turned σ s a') (hb : b.Turned σ s b') :
    a'.boxChange? b' = (a.boxChange? b).map (σ.push s) := by
  cases h : a.boxChange? b with
  | some p => exact boxChange?_eq_some ha hb h
  | none =>
    rw [Option.map_none, Option.eq_none_iff_forall_ne_some]
    intro p hp
    rw [boxChange?_eq_some ha.symm hb.symm hp] at h
    cases h

end Actors.Turned

/-! ## Turned layouts -/

/-- The layout is turned as a whole: its field, its actors and its targets. -/
structure Layout.Turned (σ : Symmetry) (l k : Layout) : Prop where
  size_eq : k.field.size = σ.size l.field.size
  at?_eq : ∀ c, k.field.at? (σ.cell l.field.size c) = l.field.at? c
  actors : l.actors.Turned σ l.field.size k.actors
  mem_targets_iff : ∀ c, σ.cell l.field.size c ∈ k.targets ↔ c ∈ l.targets

namespace Layout.Turned

variable {σ : Symmetry} {l k : Layout}

theorem symm (h : l.Turned σ k) : k.Turned σ l where
  size_eq := by rw [h.size_eq, σ.size_size]
  at?_eq c := by rw [h.size_eq, σ.cell_size, ← h.at?_eq, σ.cell_cell]
  actors := by
    rw [h.size_eq]
    exact h.actors.symm
  mem_targets_iff c := by rw [h.size_eq, σ.cell_size, ← h.mem_targets_iff, σ.cell_cell]

theorem covered_eq (h : l.Turned σ k) : k.covered = l.covered := by
  rw [Bool.eq_iff_iff, covered_iff, covered_iff, ← σ.forall_cell_iff l.field.size]
  simp only [h.mem_targets_iff, h.actors.mem_boxes_iff]

theorem glyphAt_eq (h : l.Turned σ k) (c : Coord) :
    k.glyphAt (σ.cell l.field.size c) = l.glyphAt c := by
  have hmole : k.actors.mole = some (σ.cell l.field.size c) ↔ l.actors.mole = some c := by
    rw [h.actors.mole_eq, Option.map_eq_some_iff]
    simp
  exact glyphAt_congr (h.at?_eq c) hmole (h.actors.mem_boxes_iff c) (h.mem_targets_iff c)

/-- **The characters of a turned layout are the turned characters.** -/
theorem chars_eq (h : l.Turned σ k) (hcells : l.field.size.isEmpty = false) :
    k.chars = σ.rows l.chars := by
  have hne : l.chars ≠ [] :=
    l.isRectangle_chars.ne_nil (Size.isEmpty_eq_false_iff.mp hcells).2
  have hk := k.isRectangle_chars
  rw [h.size_eq] at hk
  refine hk.ext (Symmetry.isRectangle_rows l.isRectangle_chars hne) fun c hc ↦ ?_
  obtain ⟨e, rfl⟩ : ∃ e, σ.cell l.field.size e = c := ⟨_, σ.cell_cell _ c⟩
  rw [Symmetry.charAt?_rows l.isRectangle_chars hne, charAt?_chars (h.size_eq ▸ hc),
    charAt?_chars (Symmetry.cell_mem_size.mp hc), h.glyphAt_eq]

/-- **The text of a turned layout is the turned text.** -/
theorem text_eq (h : l.Turned σ k) (hcells : l.field.size.isEmpty = false) :
    k.text = σ.text l.text := by
  rw [Symmetry.text, lines_text, ← h.chars_eq hcells, text_eq_flatMap_chars]

/-- Layouts are turned if their glyphs are, and there is one mole at most. -/
theorem ofGlyphs {s : Size} {glyph glyph' : Coord → Glyph}
    (hglyph : ∀ c, glyph' (σ.cell s c) = glyph c)
    (hmole : ∀ c e, glyph c = .mole → glyph e = .mole → c = e) :
    (ofGlyphs s glyph).Turned σ (ofGlyphs (σ.size s) glyph') where
  size_eq := rfl
  at?_eq c := by simp [at?_ofGlyphs, hglyph]
  mem_targets_iff c := by simp [mem_targets_ofGlyphs, hglyph]
  actors := by
    refine ⟨?_, fun c ↦ by simp [mem_boxes_ofGlyphs, hglyph]⟩
    have hback : ∀ c, glyph (σ.cell s c) = glyph' c := fun c ↦ by rw [← hglyph, σ.cell_cell]
    cases hsome : (Layout.ofGlyphs s glyph).actors.mole with
    | some c =>
      obtain ⟨hc, hglyphc⟩ := glyph_of_mole_ofGlyphs hsome
      refine mole_ofGlyphs (Symmetry.cell_mem_size.mpr hc) ((hglyph c).trans hglyphc) ?_
      intro e he
      rw [← hmole _ _ ((hback e).trans he) hglyphc, size_ofGlyphs, σ.cell_cell]
    | none =>
      rw [Option.map_none, Option.eq_none_iff_forall_ne_some]
      intro e he
      obtain ⟨hin, hglyphe⟩ := glyph_of_mole_ofGlyphs he
      have hin' : σ.cell s e ∈ s := by
        rw [← σ.cell_mem_size, σ.cell_cell]
        exact hin
      have hunique := fun c hc ↦ hmole c _ hc ((hback e).trans hglyphe)
      rw [mole_ofGlyphs hin' ((hback e).trans hglyphe) hunique] at hsome
      cases hsome

end Layout.Turned

/-! ## Reading turned rows -/

/-- The rows of which a level consists. -/
def LevelSource.rows? : LevelSource → Except LevelError (List (List Char))
  | .rows r => .ok r
  | .bytes b => Layout.rowsOfBytes b

theorem LevelSource.layout_of_rows? {level : LevelSource} {rows : List (List Char)}
    (h : level.rows? = .ok rows) : level.layout = Layout.ofRows rows := by
  cases level with
  | rows r =>
    cases h
    rfl
  | bytes b =>
    have hrows : Layout.rowsOfBytes b = .ok rows := h
    rw [layout, Layout.ofBytes, hrows]
    rfl

theorem Glyph.ofChar_eq_mole {x : Char} (h : ofChar x = .mole) : x = 'M' := by
  unfold ofChar at h
  split at h
  all_goals first | rfl | cases h

/-- What is in a list once at most has one place in it. -/
theorem eq_of_getElem?_of_count_le_one {cells : List Char} {x : Char} (h : cells.count x ≤ 1)
    {i k : Nat} (hi : cells[i]? = some x) (hk : cells[k]? = some x) : i = k := by
  induction cells generalizing i k with
  | nil => cases hi
  | cons first rest ih =>
    rw [List.count_cons] at h
    have hpos : ∀ {n : Nat}, rest[n]? = some x → 0 < rest.count x :=
      fun hn ↦ List.count_pos_iff.mpr (List.mem_of_getElem? hn)
    cases i with
    | zero =>
      have hfirst : first = x := by simpa using hi
      rw [if_pos (by simp [hfirst])] at h
      cases k with
      | zero => rfl
      | succ k =>
        have hrest := hpos (by simpa using hk)
        omega
    | succ i =>
      cases k with
      | zero =>
        have hfirst : first = x := by simpa using hk
        rw [if_pos (by simp [hfirst])] at h
        have hrest := hpos (by simpa using hi)
        omega
      | succ k =>
        have hrest : rest.count x ≤ 1 := by omega
        exact congrArg (· + 1) (ih hrest (by simpa using hi) (by simpa using hk))

/-- What is in rows once at most is in one row, at one place. -/
theorem eq_of_getElem?_of_count_flatten_le_one {rows : List (List Char)} {x : Char}
    (h : rows.flatten.count x ≤ 1) {i i' k k' : Nat} {row row' : List Char}
    (hrow : rows[i]? = some row) (hk : row[k]? = some x) (hrow' : rows[i']? = some row')
    (hk' : row'[k']? = some x) : i = i' ∧ k = k' := by
  induction rows generalizing i i' with
  | nil => cases hrow
  | cons first rest ih =>
    rw [List.flatten_cons, List.count_append] at h
    have hpos : ∀ {cells : List Char} {n : Nat}, cells[n]? = some x → 0 < cells.count x :=
      fun hn ↦ List.count_pos_iff.mpr (List.mem_of_getElem? hn)
    have hrest : ∀ {n m : Nat} {cells : List Char}, rest[n]? = some cells → cells[m]? = some x →
        0 < rest.flatten.count x := fun hn hm ↦ List.count_pos_iff.mpr
      (List.mem_flatten.mpr ⟨_, List.mem_of_getElem? hn, List.mem_of_getElem? hm⟩)
    cases i with
    | zero =>
      obtain rfl : first = row := by simpa using hrow
      have hin := hpos hk
      cases i' with
      | zero =>
        obtain rfl : first = row' := by simpa using hrow'
        exact ⟨rfl, eq_of_getElem?_of_count_le_one (by omega) hk hk'⟩
      | succ i' =>
        have hlater := hrest (by simpa using hrow') hk'
        omega
    | succ i =>
      have hlater := hrest (by simpa using hrow) hk
      cases i' with
      | zero =>
        obtain rfl : first = row' := by simpa using hrow'
        have hin := hpos hk'
        omega
      | succ i' =>
        obtain ⟨hi, hk⟩ := ih (by omega) (by simpa using hrow) (by simpa using hrow')
        exact ⟨by rw [hi], hk⟩

theorem eq_of_charAt?_of_count_le_one {rows : List (List Char)} {x : Char} {c e : Coord}
    (h : rows.flatten.count x ≤ 1) (hc : charAt? rows c = some x) (he : charAt? rows e = some x) :
    c = e := by
  obtain ⟨row, hrow, hcolumn⟩ := Option.bind_eq_some_iff.mp hc
  obtain ⟨row', hrow', hcolumn'⟩ := Option.bind_eq_some_iff.mp he
  obtain ⟨hrows, hcolumns⟩ :=
    eq_of_getElem?_of_count_flatten_le_one h hrow hcolumn hrow' hcolumn'
  cases c
  cases e
  rw [Coord.mk.injEq]
  exact ⟨UInt32.toNat_inj.mp hcolumns, UInt32.toNat_inj.mp hrows⟩

namespace Layout

variable {σ : Symmetry} {s : Size} {rows : List (List Char)} {l k : Layout}

/-- A rectangle of characters with cells is read as the layout of its glyphs. -/
theorem ofRows_of_isRectangle (h : IsRectangle s.width.toNat s.height.toNat rows)
    (hs : s.isEmpty = false) :
    ofRows rows = .ok (ofGlyphs s (glyphOfRows (rows.map List.toArray).toArray)) := by
  obtain ⟨hwidth, hheight⟩ := Size.isEmpty_eq_false_iff.mp hs
  rw [ofRows_eq_ok_iff, h.widthOfRows_eq (h.ne_nil hheight), h.length_eq, UInt32.ofNat_toNat,
    UInt32.ofNat_toNat]
  exact ⟨⟨Nat.ne_of_gt hwidth, s.width.toNat_lt, s.height.toNat_lt⟩, rfl⟩

/-- Rows with a side too long for the coordinates cannot be read. -/
theorem ofRows_eq_error {width height : Nat} (h : IsRectangle width height rows)
    (hheight : 0 < height) (hlong : UInt32.size ≤ width ∨ UInt32.size ≤ height) :
    ofRows rows = .error .empty := by
  rw [ofRows, h.widthOfRows_eq (h.ne_nil hheight), h.length_eq]
  exact if_pos (.inr hlong)

/-- Turned rows have the same sides, which may have changed places. -/
theorem ofRows_rows_eq_error {width height : Nat} (h : IsRectangle width height rows)
    (hwidth : 0 < width) (hheight : 0 < height)
    (hlong : UInt32.size ≤ width ∨ UInt32.size ≤ height) :
    ofRows (σ.rows rows) = .error .empty := by
  cases σ with
  | mirror => exact ofRows_eq_error h.reverse hheight hlong
  | transpose => exact ofRows_eq_error (h.columns (h.ne_nil hheight)) hwidth hlong.symm

/-- **Turned rows are read as the turned layout.** -/
theorem exists_turned (h : IsRectangle s.width.toNat s.height.toNat rows)
    (hs : s.isEmpty = false) (hmole : rows.flatten.count 'M' ≤ 1) (σ : Symmetry) :
    ∃ l k, ofRows rows = .ok l ∧ ofRows (σ.rows rows) = .ok k ∧ l.field.size = s ∧
      l.Turned σ k := by
  have hne : rows ≠ [] := h.ne_nil (Size.isEmpty_eq_false_iff.mp hs).2
  refine ⟨_, _, ofRows_of_isRectangle h hs,
    ofRows_of_isRectangle (Symmetry.isRectangle_rows h hne) ((σ.isEmpty_size s).trans hs), rfl,
    Turned.ofGlyphs (fun c ↦ ?_) fun c e hc he ↦ ?_⟩
  · rw [glyphOfRows_eq, glyphOfRows_eq, Symmetry.charAt?_rows h hne]
  · have hchar : ∀ {c : Coord}, glyphOfRows (rows.map List.toArray).toArray c = .mole →
        charAt? rows c = some 'M' := by
      intro c hc
      rw [glyphOfRows_eq] at hc
      cases hat : charAt? rows c with
      | none =>
        rw [hat] at hc
        cases hc
      | some x =>
        rw [hat] at hc
        rw [Glyph.ofChar_eq_mole hc]
    exact eq_of_charAt?_of_count_le_one hmole (hchar hc) (hchar he)

end Layout

end MolePuzzle
