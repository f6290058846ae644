import Mathlib.Data.List.ReduceOption
import MolePuzzle.Proofs.SaveContents

/-!
# The canonical form of level text

Level text is read whatever its line ends are, and of what cannot be told apart in a level it makes
no difference which is written: unknown characters and missing ends of rows are outside of the
level, and of several moles only the last one counts.  `Layout.canonicalText` is the form in which
all of this is settled, and `World.ofBytes_canonical` says that it is what a world writes that has
been loaded from rows of characters or from a text that spells them (`Text.Spells`).

The text of a layout is looked at spot by spot.  `Size.spots` lists the cells row by row, with a gap
for each line end, so that reading and writing are maps over one list, and what comes in between is
that all moles but the last are taken off (`Layout.keepLastMole_map`).
-/

set_option autoImplicit false

namespace MolePuzzle

/-! ## Texts that spell rows -/

namespace Text

variable {row text : List Char} {rows : List (List Char)}

/-- The text spells the rows.  Each row is ended by a newline, with a carriage return before it or
without; the last one need not be ended unless it is empty. -/
inductive Spells : List Char → List (List Char) → Prop where
  | nil : Spells [] []
  | unended {row : List Char} (hne : row ≠ []) : Spells row [row]
  | newline {text : List Char} {rows : List (List Char)} (row : List Char)
      (rest : Spells text rows) : Spells (row ++ '\n' :: text) (row :: rows)
  | returnNewline {text : List Char} {rows : List (List Char)} (row : List Char)
      (rest : Spells text rows) : Spells (row ++ '\r' :: '\n' :: text) (row :: rows)

/-- **Rows are read from every text that spells them**, unless the end of one could be taken for a
part of its line end. -/
theorem lines_of_spells (hrows : ∀ row ∈ rows, '\n' ∉ row ∧ row.getLast? ≠ some '\r')
    (h : Spells text rows) : lines text = rows := by
  induction h with
  | nil => rfl
  | @unended row hne =>
    rw [lines, split_of_not_mem (hrows row List.mem_cons_self).1]
    simp [hne]
  | newline row _ ih =>
    obtain ⟨⟨hnewline, hreturn⟩, hrest⟩ := List.forall_mem_cons.mp hrows
    rw [lines_append_newline hnewline, ih hrest, dropReturn, if_neg hreturn]
  | @returnNewline text rows row _ ih =>
    obtain ⟨⟨hnewline, -⟩, hrest⟩ := List.forall_mem_cons.mp hrows
    have hended : '\n' ∉ row ++ ['\r'] := by simpa using hnewline
    have htext : row ++ '\r' :: '\n' :: text = (row ++ ['\r']) ++ '\n' :: text := by simp
    rw [htext, lines_append_newline hended, ih hrest, dropReturn, if_pos List.getLast?_concat,
      List.dropLast_concat]

end Text

/-! ## Spots of a level -/

/-- The numbers below a product, in runs of one length. -/
theorem range_mul (m n : Nat) :
    List.range (m * n) = (List.range n).flatMap fun i ↦ (List.range m).map (m * i + ·) := by
  induction n with
  | zero => rfl
  | succ n ih =>
    rw [Nat.mul_succ, List.range_add, ih, List.range_succ, List.flatMap_append,
      List.flatMap_singleton]

/-- The cells of a size, row by row, with a gap at the end of each row. -/
def Size.spots (s : Size) : List (Option Coord) :=
  (List.range s.height.toNat).flatMap fun row ↦
    (List.range s.width.toNat).map
      (fun column ↦ some ⟨UInt32.ofNat column, UInt32.ofNat row⟩) ++ [none]

/-- Without the gaps, the spots are the cells in reading order. -/
theorem Size.reduceOption_spots (s : Size) : s.spots.reduceOption = s.coords := by
  have hcell : ∀ row, ∀ column < s.width.toNat,
      s.coordAt (s.width.toNat * row + column) = ⟨UInt32.ofNat column, UInt32.ofNat row⟩ := by
    intro row column hcolumn
    rw [coordAt, Nat.mul_add_mod, Nat.mod_eq_of_lt hcolumn, Nat.mul_add_div (by omega),
      Nat.div_eq_of_lt hcolumn, Nat.add_zero]
  rw [coords, area, range_mul, List.map_flatMap, spots, List.reduceOption, List.filterMap_flatMap]
  refine List.flatMap_congr fun row _ ↦ ?_
  rw [List.map_map, List.filterMap_append, List.filterMap_map]
  simpa using fun column hcolumn ↦ (hcell row column hcolumn).symm

namespace Layout

variable {s : Size} {glyph : Coord → Glyph} {c : Coord} {cells : List Coord} {mole : Option Coord}
  {spots : List (Option Coord)}

/-- The character at a spot: that of the glyph, or the line end. -/
def charAt (glyph : Coord → Glyph) (spot : Option Coord) : Char :=
  spot.elim '\n' fun c ↦ (glyph c).char

theorem text_eq_map_spots (l : Layout) : l.text = l.field.size.spots.map (charAt l.glyphAt) := by
  simp only [text, rows, Size.spots, List.flatMap_map, List.map_flatMap, List.map_append,
    List.map_map]
  rfl

theorem charAt_eq_iff {spot : Option Coord} :
    charAt glyph spot = 'M' ↔ ∃ c, spot = some c ∧ glyph c = .mole := by
  have hglyph : ∀ g : Glyph, g.char = 'M' ↔ g = .mole := by
    intro g
    cases g <;> decide
  cases spot with
  | none => simp [charAt]
  | some c => simp [charAt, hglyph]

/-- There is a mole among the characters if there is one among the cells. -/
theorem mem_map_charAt_iff :
    'M' ∈ spots.map (charAt glyph) ↔ ∃ c ∈ spots.reduceOption, glyph c = .mole := by
  simp only [List.mem_map, charAt_eq_iff, List.reduceOption_mem_iff]
  exact ⟨fun ⟨_, hspot, c, hc, hmole⟩ ↦ ⟨c, hc ▸ hspot, hmole⟩,
    fun ⟨c, hspot, hmole⟩ ↦ ⟨_, hspot, c, rfl, hmole⟩⟩

/-! ## All moles but the last -/

/-- The mole is on the last of the cells that have its glyph, if there is one. -/
def IsLastMole (glyph : Coord → Glyph) (cells : List Coord) (mole : Option Coord) : Prop :=
  ∀ c ∈ (cells.filter fun c ↦ glyph c = .mole).getLast?, mole = some c

theorem IsLastMole.of_cons (h : IsLastMole glyph (c :: cells) mole) :
    IsLastMole glyph cells mole := by
  intro e he
  refine h e ?_
  rw [List.filter_cons]
  split
  · rw [List.getLast?_cons, Option.mem_def.mp he]
    rfl
  · exact he

/-- A mole is the last one if and only if no other comes after it. -/
theorem IsLastMole.exists_mole_iff (h : IsLastMole glyph (c :: cells) mole) (hc : c ∉ cells)
    (hglyph : glyph c = .mole) : (∃ e ∈ cells, glyph e = .mole) ↔ mole ≠ some c := by
  have hmem : ∀ e, e ∈ cells.filter (fun c ↦ glyph c = .mole) ↔ e ∈ cells ∧ glyph e = .mole := by
    simp
  cases hlast : (cells.filter fun c ↦ glyph c = .mole).getLast? with
  | none =>
    rw [List.getLast?_eq_none_iff] at hlast
    rw [IsLastMole, List.filter_cons_of_pos (by simpa using hglyph), hlast] at h
    refine iff_of_false ?_ (not_not.mpr (h c rfl))
    rintro ⟨e, he⟩
    exact List.not_mem_nil (hlast ▸ (hmem e).mpr he)
  | some e =>
    have he := (hmem e).mp (List.mem_of_getLast? hlast)
    refine iff_of_true ⟨e, he⟩ ?_
    rw [h.of_cons e hlast, Ne, Option.some.injEq]
    rintro rfl
    exact hc he.1

/-- A text with floor in the place of all moles but the last. -/
def keepLastMole : List Char → List Char
  | [] => []
  | c :: rest => (if c = 'M' ∧ 'M' ∈ rest then 'F' else c) :: keepLastMole rest

/-- **Taking off moles spot by spot.**  What is left of the glyphs is known from the last mole. -/
theorem keepLastMole_map (hnodup : spots.reduceOption.Nodup)
    (hmole : IsLastMole glyph spots.reduceOption mole) :
    keepLastMole (spots.map (charAt glyph)) = spots.map
      (charAt fun c ↦ if glyph c = .mole ∧ mole ≠ some c then .floor else glyph c) := by
  induction spots with
  | nil => rfl
  | cons spot rest ih =>
    cases spot with
    | none => exact congrArg ('\n' :: ·) (ih hnodup hmole)
    | some c =>
      rw [List.reduceOption_cons_of_some] at hnodup hmole
      obtain ⟨hc, hnodup⟩ := List.nodup_cons.mp hnodup
      rw [List.map_cons, List.map_cons, keepLastMole, ih hnodup hmole.of_cons]
      refine congrArg (· :: _) ?_
      have hhead : charAt glyph (some c) = 'M' ∧ 'M' ∈ rest.map (charAt glyph) ↔
          glyph c = .mole ∧ mole ≠ some c := by
        rw [charAt_eq_iff, mem_map_charAt_iff]
        simp only [Option.some.injEq, exists_eq_left']
        exact and_congr_right (hmole.exists_mole_iff hc)
      rw [if_congr hhead rfl rfl]
      show _ = (if glyph c = .mole ∧ mole ≠ some c then Glyph.floor else glyph c).char
      split <;> rfl

/-- What is written on a cell of a level that was read: the glyph that was there, but floor for a
mole that is not the one of the level. -/
theorem glyphAt_ofGlyphs (hc : c ∈ s) : (ofGlyphs s glyph).glyphAt c =
    if glyph c = .mole ∧ (ofGlyphs s glyph).actors.mole ≠ some c then .floor else glyph c := by
  rw [glyphAt, at?_ofGlyphs, if_pos hc]
  by_cases hmole : (ofGlyphs s glyph).actors.mole = some c
  · have hglyph := (glyph_of_mole_ofGlyphs hmole).2
    simp [hglyph, hmole, Glyph.terrain]
  · cases hglyph : glyph c <;> simp [Actors.hasBox, Glyph.terrain, Glyph.hasBox, Glyph.hasTarget,
      mem_boxes_ofGlyphs, mem_targets_ofGlyphs, hc, hmole, hglyph]

/-- **What is written of a level that was read** is what was read, but for its other moles. -/
theorem text_ofGlyphs (s : Size) (glyph : Coord → Glyph) :
    (ofGlyphs s glyph).text = keepLastMole (s.spots.map (charAt glyph)) := by
  have hspots := s.reduceOption_spots
  have hnodup : s.spots.reduceOption.Nodup := hspots ▸ s.nodup_coords
  have hmole : IsLastMole glyph s.spots.reduceOption (ofGlyphs s glyph).actors.mole := by
    rw [hspots]
    exact fun c hc ↦ hc
  rw [text_eq_map_spots, keepLastMole_map hnodup hmole]
  refine List.map_congr_left fun spot hspot ↦ ?_
  cases spot with
  | none => rfl
  | some c =>
    rw [← List.reduceOption_mem_iff] at hspot
    have hc : c ∈ s := Size.mem_coords.mp (hspots ▸ hspot)
    exact congrArg Glyph.char (glyphAt_ofGlyphs hc)

/-! ## The canonical form -/

/-- A character as it is written: those without a meaning are cells outside of the level. -/
def canonicalChar (c : Char) : Char :=
  if c ∈ ['E', 'W', 'F', 'M', 'B', 'A', 'T'] then c else 'E'

/-- A row as it is written in a level of some width. -/
def canonicalRow (width : Nat) (row : List Char) : List Char :=
  row.map canonicalChar ++ List.replicate (width - row.length) 'E'

/-- The canonical form of rows: each is on a line of its own and as long as the longest, all
characters have a meaning, and there is one mole at most. -/
def canonicalText (rows : List (List Char)) : List Char :=
  keepLastMole (rows.flatMap fun row ↦ canonicalRow (widthOfRows rows) row ++ ['\n'])

theorem char_ofChar (c : Char) : (Glyph.ofChar c).char = canonicalChar c := by
  by_cases hc : c ∈ ['E', 'W', 'F', 'M', 'B', 'A', 'T']
  · rw [canonicalChar, if_pos hc]
    simp only [List.mem_cons, List.not_mem_nil, or_false] at hc
    rcases hc with rfl | rfl | rfl | rfl | rfl | rfl | rfl <;> rfl
  · rw [canonicalChar, if_neg hc]
    unfold Glyph.ofChar
    split
    case h_7 => rfl
    all_goals exact absurd (by decide) hc

/-- What the columns of a row have, with those that are missing outside of the level. -/
theorem map_glyphOfRows {rows : List (List Char)} {i width : Nat} (hi : i < rows.length)
    (hheight : rows.length < UInt32.size) (hwidth : width < UInt32.size)
    (hle : rows[i].length ≤ width) :
    ((List.range width).map fun column ↦
      (glyphOfRows (rows.map List.toArray).toArray ⟨UInt32.ofNat column, UInt32.ofNat i⟩).char) =
      canonicalRow width rows[i] := by
  have hrow : (UInt32.ofNat i).toNat = i := UInt32.toNat_ofNat_of_lt' (Nat.lt_trans hi hheight)
  refine List.ext_getElem (by simp [canonicalRow, hle]) fun j hj hj' ↦ ?_
  rw [List.length_map, List.length_range] at hj
  have hcolumn : (UInt32.ofNat j).toNat = j := UInt32.toNat_ofNat_of_lt' (Nat.lt_trans hj hwidth)
  simp only [List.getElem_map, List.getElem_range, glyphOfRows, hrow, hcolumn,
    List.getElem?_toArray, List.getElem?_map, List.getElem?_eq_getElem hi, Option.map_some]
  rcases Nat.lt_or_ge j rows[i].length with hshort | hlong
  · simp [canonicalRow, hshort, char_ofChar]
  · simp [canonicalRow, hlong, Glyph.char]

/-- **What is written of rows that were read is their canonical form.** -/
theorem text_of_ofRows {rows : List (List Char)} {l : Layout} (h : ofRows rows = .ok l) :
    l.text = canonicalText rows := by
  obtain ⟨⟨-, hwidth, hheight⟩, rfl⟩ := ofRows_eq_ok_iff.mp h
  have hwidthWord := UInt32.toNat_ofNat_of_lt' hwidth
  have hheightWord := UInt32.toNat_ofNat_of_lt' hheight
  have hle : ∀ row ∈ rows, row.length ≤ widthOfRows rows := widthOfRows_le_iff.mp (Nat.le_refl _)
  rw [text_ofGlyphs, canonicalText, Size.spots, List.map_flatMap, hwidthWord, hheightWord,
    List.flatMap_def, List.flatMap_def]
  refine congrArg (fun lines : List (List Char) ↦ keepLastMole lines.flatten) ?_
  refine List.ext_getElem (by simp) fun i hi hi' ↦ ?_
  rw [List.length_map] at hi'
  rw [List.getElem_map, List.getElem_map, List.getElem_range,
    ← map_glyphOfRows hi' hheight hwidth (hle _ (List.getElem_mem hi')), List.map_append,
    List.map_map]
  rfl

/-- The canonical form has a line for each row, and all lines are as long as the longest row. -/
theorem lines_canonicalText {rows : List (List Char)} {l : Layout} (h : ofRows rows = .ok l) :
    (Text.lines (canonicalText rows)).length = rows.length ∧
      ∀ line ∈ Text.lines (canonicalText rows), line.length = widthOfRows rows := by
  obtain ⟨hwidth, hheight⟩ := size_of_ofRows h
  rw [← text_of_ofRows h, lines_text, length_chars, hheight, ← hwidth]
  exact ⟨rfl, fun line ↦ length_of_mem_chars⟩

/-! ## Which rows can be read -/

theorem widthOfRows_eq_zero_iff {rows : List (List Char)} :
    widthOfRows rows = 0 ↔ ∀ row ∈ rows, row = [] := by
  rw [← Nat.le_zero, widthOfRows_le_iff]
  simp only [Nat.le_zero, List.length_eq_zero_iff]

theorem ofRows_of_forall_eq_nil {rows : List (List Char)} (h : ∀ row ∈ rows, row = []) :
    ofRows rows = .error .empty := by
  rw [ofRows]
  exact if_pos (.inl (widthOfRows_eq_zero_iff.mpr h))

/-- Rows can be read when one has a cell, and their number and lengths are words. -/
theorem exists_ofRows {rows : List (List Char)} (hcell : ∃ row ∈ rows, row ≠ [])
    (hheight : rows.length < UInt32.size) (hlengths : ∀ row ∈ rows, row.length < UInt32.size) :
    ∃ l, ofRows rows = .ok l := by
  have hpos : widthOfRows rows ≠ 0 := by
    obtain ⟨row, hrow, hne⟩ := hcell
    exact fun hzero ↦ hne (widthOfRows_eq_zero_iff.mp hzero row hrow)
  have hwidth : widthOfRows rows < UInt32.size := by
    have hle : widthOfRows rows ≤ UInt32.size - 1 :=
      widthOfRows_le_iff.mpr fun row hrow ↦ Nat.le_pred_of_lt (hlengths row hrow)
    exact Nat.lt_of_le_pred (by decide) hle
  exact ⟨_, ofRows_eq_ok_iff.mpr ⟨⟨hpos, hwidth, hheight⟩, rfl⟩⟩

end Layout

/-! ## Loading and writing -/

namespace World

variable {rows : List (List Char)} {text : List Char}

theorem ofBytes_encode (text : List Char) :
    ofBytes (Text.Utf8.encode text) = ofRows (Text.lines text) := by
  rw [ofBytes_eq_map, ofRows_eq_map, Layout.ofBytes_encode]

/-- **Level text is read up to a canonical form, whatever its line ends.**  Rows are given as they
are or in a text that spells them.  If they are all empty there is no level; otherwise, if
coordinates can tell their cells apart, both give the same world.  It writes the canonical form of
the rows, which has as many lines as there are rows, all as long as the longest row, and is written
again when it is loaded. -/
theorem ofBytes_canonical (hrows : ∀ row ∈ rows, '\n' ∉ row ∧ row.getLast? ≠ some '\r')
    (htext : Text.Spells text rows) :
    ((∀ row ∈ rows, row = []) →
      ofBytes (Text.Utf8.encode text) = .error .empty ∧ ofRows rows = .error .empty) ∧
    ((∃ row ∈ rows, row ≠ []) → rows.length < UInt32.size →
      (∀ row ∈ rows, row.length < UInt32.size) →
      ∃ w, ofBytes (Text.Utf8.encode text) = .ok w ∧ ofRows rows = .ok w ∧
        w.bytes = Text.Utf8.encode (Layout.canonicalText rows) ∧
        (Text.lines (Layout.canonicalText rows)).length = rows.length ∧
        (∀ line ∈ Text.lines (Layout.canonicalText rows),
          line.length = Layout.widthOfRows rows) ∧
        ∃ again, ofBytes w.bytes = .ok again ∧ again.bytes = w.bytes) := by
  rw [ofBytes_encode, Text.lines_of_spells hrows htext, ofRows_eq_map]
  refine ⟨fun hempty ↦ ?_, fun hcell hheight hlengths ↦ ?_⟩
  · rw [Layout.ofRows_of_forall_eq_nil hempty]
    exact ⟨rfl, rfl⟩
  · obtain ⟨l, hl⟩ := Layout.exists_ofRows hcell hheight hlengths
    obtain ⟨s, glyph, hsize, hglyphs⟩ := Layout.exists_glyphs_of_ofRows hl
    obtain ⟨hlines, hline⟩ := Layout.lines_canonicalText hl
    have hcells : l.field.size.isEmpty = false := by rwa [hglyphs, Layout.size_ofGlyphs]
    have hcomplete : l.field.Complete := hglyphs ▸ Layout.complete_ofGlyphs s glyph
    have hbytes : l.bytes = Text.Utf8.encode (Layout.canonicalText rows) :=
      congrArg Text.Utf8.encode (Layout.text_of_ofRows hl)
    have hloaded : (Layout.ofRows rows).map (fun l ↦ (install {} l).1) = .ok (install {} l).1 := by
      rw [hl]
      rfl
    exact ⟨_, hloaded, hloaded, hbytes, hlines, hline, _, ofBytes_bytes hcells,
      Layout.bytes_written hcomplete⟩

/-- Two moles, an empty row, characters without a meaning, rows of different lengths and line ends
of both kinds but none at the end; and rows without a cell. -/
theorem ofBytes_canonical_untidy :
    let rows : List (List Char) := [['M', '?'], [], ['x', 'F', 'M', 'é'], ['T']]
    let text : List Char :=
      ['M', '?', '\r', '\n', '\n', 'x', 'F', 'M', 'é', '\r', '\n', 'T']
    (Text.Spells text rows ∧ (∀ row ∈ rows, '\n' ∉ row ∧ row.getLast? ≠ some '\r') ∧
      ∃ w, ofBytes (Text.Utf8.encode text) = .ok w ∧ ofRows rows = .ok w ∧
        w.bytes = Text.Utf8.encode "FEEE\nEEEE\nEFME\nTEEE\n".toList ∧
        ∃ again, ofBytes w.bytes = .ok again ∧ again.bytes = w.bytes) ∧
    Text.Spells ['\r', '\n', '\n'] [[], []] ∧
      ofBytes (Text.Utf8.encode ['\r', '\n', '\n']) = .error .empty ∧
      ofRows [[], []] = .error .empty := by
  intro rows text
  have hspells : Text.Spells text rows :=
    .returnNewline ['M', '?'] (.newline [] (.returnNewline ['x', 'F', 'M', 'é']
      (.unended (List.cons_ne_nil 'T' []))))
  have hrows : ∀ row ∈ rows, '\n' ∉ row ∧ row.getLast? ≠ some '\r' := by decide
  have hcanonical : Layout.canonicalText rows = "FEEE\nEEEE\nEFME\nTEEE\n".toList := by decide
  have hblank : Text.Spells ['\r', '\n', '\n'] [[], []] :=
    .returnNewline [] (.newline [] .nil)
  obtain ⟨-, hloads⟩ := ofBytes_canonical hrows hspells
  obtain ⟨hempty, -⟩ := ofBytes_canonical (by decide) hblank
  obtain ⟨w, hbytes, hchars, hwritten, -, -, hagain⟩ := hloads (by decide) (by decide) (by decide)
  exact ⟨⟨hspells, hrows, w, hbytes, hchars, hcanonical ▸ hwritten, hagain⟩, hblank,
    hempty (by decide)⟩

end World

end MolePuzzle
