import MolePuzzle.Proofs.Level
import MolePuzzle.Proofs.Utf8

/-!
# Level text written and read

A layout with cells writes level text that can be read back, and what is read is the layout of the
glyphs that were written (`Layout.ofBytes_bytes`).  `Layout.written` is that layout.  The glyphs
decide what it has in common with the first one: the terrain is the same everywhere, but of the
actors and targets only what has a glyph of its own comes back.  That is the mole on floor, and the
boxes and targets on floor and not under the mole.
-/

set_option autoImplicit false

namespace MolePuzzle

namespace Text

/-- The first newline ends the first line. -/
theorem lines_append_newline {row : List Char} (h : '\n' ∉ row) (text : List Char) :
    lines (row ++ '\n' :: text) = dropReturn row :: lines text := by
  obtain ⟨first, more, hpieces⟩ := List.exists_cons_of_ne_nil (split_ne_nil '\n' text)
  rw [lines, lines, split_append_cons h, hpieces]
  simp only [List.dropLast_cons_cons, List.getLast?_cons_cons, List.map_cons, List.cons_append]

/-- **Lines that are ended one by one are read back**, up to a carriage return at their end. -/
theorem lines_flatMap_concat {rows : List (List Char)} (h : ∀ row ∈ rows, '\n' ∉ row) :
    lines (rows.flatMap fun row ↦ row ++ ['\n']) = rows.map dropReturn := by
  induction rows with
  | nil => rfl
  | cons row rest ih =>
    obtain ⟨hrow, hrest⟩ := List.forall_mem_cons.mp h
    rw [List.flatMap_cons, List.append_assoc, List.singleton_append, lines_append_newline hrow,
      ih hrest, List.map_cons]

theorem dropReturn_of_not_mem {line : List Char} (h : '\r' ∉ line) : dropReturn line = line := by
  rw [dropReturn, if_neg]
  exact fun hlast ↦ h (List.mem_of_getLast? hlast)

end Text

theorem Glyph.char_ne_newline (g : Glyph) : g.char ≠ '\n' := by cases g <;> decide

theorem Glyph.char_ne_return (g : Glyph) : g.char ≠ '\r' := by cases g <;> decide

/-- A glyph is known from what it tells of its cell. -/
theorem Glyph.eq_of_tells {g g' : Glyph} (hterrain : g.terrain = g'.terrain)
    (hmole : g = .mole ↔ g' = .mole) (hbox : g.hasBox = true ↔ g'.hasBox = true)
    (htarget : g.hasTarget = true ↔ g'.hasTarget = true) : g = g' := by
  cases g <;> cases g' <;> simp_all [Glyph.terrain, Glyph.hasBox, Glyph.hasTarget]

namespace Layout

variable {l : Layout} {c : Coord}

/-! ## The glyphs of a layout -/

/-- Nothing but the terrain is told of a cell that is no floor. -/
theorem glyphAt_of_not_isFloor (h : ¬ l.field.IsFloor c) :
    l.glyphAt c = .outside ∨ l.glyphAt c = .wall := by
  rw [glyphAt]
  split <;> rename_i hat
  · exact .inl rfl
  · exact .inl rfl
  · exact .inr rfl
  · exact absurd hat h

/-- On floor the mole hides what else there is. -/
theorem glyphAt_of_isFloor (h : l.field.IsFloor c) : l.glyphAt c =
    if l.actors.mole = some c then .mole
    else if c ∈ l.actors.boxes then if c ∈ l.targets then .placedBox else .looseBox
    else if c ∈ l.targets then .target else .floor := by
  rw [glyphAt, h]
  by_cases hbox : c ∈ l.actors.boxes <;> by_cases htarget : c ∈ l.targets <;>
    simp [Actors.hasBox, hbox, htarget]

theorem terrain_glyphAt (l : Layout) (c : Coord) :
    (l.glyphAt c).terrain = (l.field.at? c).getD .void := by
  rw [glyphAt]
  split <;> rename_i hat <;> rw [hat]
  · rfl
  · rfl
  · rfl
  · split
    · rfl
    · split <;> rfl

theorem glyphAt_eq_mole_iff :
    l.glyphAt c = .mole ↔ l.field.IsFloor c ∧ l.actors.mole = some c := by
  by_cases hfloor : l.field.IsFloor c
  · rw [glyphAt_of_isFloor hfloor, and_iff_right hfloor]
    split <;> rename_i hmole
    · simp [hmole]
    · split <;> split <;> simp [hmole]
  · rcases glyphAt_of_not_isFloor hfloor with h | h <;> simp [h, hfloor]

theorem hasBox_glyphAt : (l.glyphAt c).hasBox = true ↔
    l.field.IsFloor c ∧ l.actors.mole ≠ some c ∧ c ∈ l.actors.boxes := by
  by_cases hfloor : l.field.IsFloor c
  · rw [glyphAt_of_isFloor hfloor, and_iff_right hfloor]
    split <;> rename_i hmole
    · simp [hmole, Glyph.hasBox]
    · split <;> rename_i hbox <;> split <;> simp [hmole, hbox, Glyph.hasBox]
  · rcases glyphAt_of_not_isFloor hfloor with h | h <;> simp [h, hfloor, Glyph.hasBox]

theorem hasTarget_glyphAt : (l.glyphAt c).hasTarget = true ↔
    l.field.IsFloor c ∧ l.actors.mole ≠ some c ∧ c ∈ l.targets := by
  by_cases hfloor : l.field.IsFloor c
  · rw [glyphAt_of_isFloor hfloor, and_iff_right hfloor]
    split <;> rename_i hmole
    · simp [hmole, Glyph.hasTarget]
    · split <;> split <;> rename_i htarget <;> simp [hmole, htarget, Glyph.hasTarget]
  · rcases glyphAt_of_not_isFloor hfloor with h | h <;> simp [h, hfloor, Glyph.hasTarget]

/-- The glyph of a cell is known from what is there. -/
theorem glyphAt_congr {l' : Layout} {c' : Coord} (hat : l.field.at? c = l'.field.at? c')
    (hmole : l.actors.mole = some c ↔ l'.actors.mole = some c')
    (hbox : c ∈ l.actors.boxes ↔ c' ∈ l'.actors.boxes)
    (htarget : c ∈ l.targets ↔ c' ∈ l'.targets) : l.glyphAt c = l'.glyphAt c' := by
  have hfloor : l.field.IsFloor c ↔ l'.field.IsFloor c' := by
    rw [Field.IsFloor, Field.IsFloor, hat]
  refine Glyph.eq_of_tells ?_ ?_ ?_ ?_
  · rw [terrain_glyphAt, terrain_glyphAt, hat]
  · rw [glyphAt_eq_mole_iff, glyphAt_eq_mole_iff, hfloor, hmole]
  · rw [hasBox_glyphAt, hasBox_glyphAt, hfloor, Ne, Ne, hmole, hbox]
  · rw [hasTarget_glyphAt, hasTarget_glyphAt, hfloor, Ne, Ne, hmole, htarget]

/-! ## What is written -/

/-- What level text keeps of a layout. -/
def written (l : Layout) : Layout := .ofGlyphs l.field.size l.glyphAt

theorem field_written (h : l.field.Complete) : l.written.field = l.field := by
  simp only [written, ofGlyphs, terrain_glyphAt]
  exact Field.ofFn_at? h

/-- The mole is kept if it stands on floor. -/
theorem mole_written :
    l.written.actors.mole = some c ↔ l.field.IsFloor c ∧ l.actors.mole = some c := by
  constructor
  · intro hmole
    exact glyphAt_eq_mole_iff.mp (glyph_of_mole_ofGlyphs hmole).2
  · intro hkept
    refine mole_ofGlyphs (Field.mem_size_of_at? hkept.1) (glyphAt_eq_mole_iff.mpr hkept) ?_
    intro e he
    exact Option.some.inj ((glyphAt_eq_mole_iff.mp he).2.symm.trans hkept.2)

/-- A box is kept if it stands on floor, and not under the mole. -/
theorem mem_boxes_written : c ∈ l.written.actors.boxes ↔
    l.field.IsFloor c ∧ l.actors.mole ≠ some c ∧ c ∈ l.actors.boxes := by
  rw [written, mem_boxes_ofGlyphs, hasBox_glyphAt]
  exact and_iff_right_of_imp fun h ↦ Field.mem_size_of_at? h.1

/-- A target is kept if it is floor, and not under the mole. -/
theorem mem_targets_written : c ∈ l.written.targets ↔
    l.field.IsFloor c ∧ l.actors.mole ≠ some c ∧ c ∈ l.targets := by
  rw [written, mem_targets_ofGlyphs, hasTarget_glyphAt]
  exact and_iff_right_of_imp fun h ↦ Field.mem_size_of_at? h.1

/-- **What is written of a layout is written of it again.** -/
theorem glyphAt_written (h : l.field.Complete) (c : Coord) :
    l.written.glyphAt c = l.glyphAt c := by
  have hmole : l.written.actors.mole = some c ↔ l.field.IsFloor c ∧ l.actors.mole = some c :=
    mole_written
  refine Glyph.eq_of_tells ?_ ?_ ?_ ?_
  · rw [terrain_glyphAt, terrain_glyphAt, field_written h]
  · rw [glyphAt_eq_mole_iff, glyphAt_eq_mole_iff, field_written h, hmole, and_self_left]
  · rw [hasBox_glyphAt, hasBox_glyphAt, field_written h, mem_boxes_written, Ne, hmole]
    tauto
  · rw [hasTarget_glyphAt, hasTarget_glyphAt, field_written h, mem_targets_written, Ne, hmole]
    tauto

theorem bytes_written (h : l.field.Complete) : l.written.bytes = l.bytes := by
  have hrows : l.written.rows = l.rows := by simp only [rows, field_written h, glyphAt_written h]
  rw [bytes, bytes, text, text, hrows]

/-! ## Rows of characters -/

theorem widthOfRows_le_iff {rows : List (List Char)} {n : Nat} :
    widthOfRows rows ≤ n ↔ ∀ row ∈ rows, row.length ≤ n := by
  have hfoldl : ∀ (lengths : List Nat) (m : Nat),
      lengths.foldl max m ≤ n ↔ m ≤ n ∧ ∀ k ∈ lengths, k ≤ n := by
    intro lengths
    induction lengths with
    | nil => simp
    | cons k rest ih =>
      intro m
      rw [List.foldl_cons, ih, List.forall_mem_cons, Nat.max_le, and_assoc]
  rw [widthOfRows, hfoldl, List.forall_mem_map]
  exact and_iff_right (Nat.zero_le n)

/-- Rows of one length have it as their width. -/
theorem widthOfRows_eq {rows : List (List Char)} {n : Nat} (hne : rows ≠ [])
    (hlength : ∀ row ∈ rows, row.length = n) : widthOfRows rows = n := by
  obtain ⟨row, hrow⟩ := List.exists_mem_of_ne_nil rows hne
  refine Nat.le_antisymm ?_ ?_
  · exact widthOfRows_le_iff.mpr fun row hrow ↦ (hlength row hrow).le
  · exact hlength row hrow ▸ widthOfRows_le_iff.mp (Nat.le_refl _) row hrow

/-- A bound on the rows is their width if some row reaches it. -/
theorem widthOfRows_eq_iff {rows : List (List Char)} {n : Nat} (hn : 0 < n)
    (hle : ∀ row ∈ rows, row.length ≤ n) :
    widthOfRows rows = n ↔ ∃ row ∈ rows, row.length = n := by
  constructor
  · rintro rfl
    by_contra hnone
    have hlt : widthOfRows rows ≤ widthOfRows rows - 1 :=
      widthOfRows_le_iff.mpr fun row hrow ↦
        Nat.le_sub_one_of_lt (Nat.lt_of_le_of_ne (hle row hrow) fun heq ↦ hnone ⟨row, hrow, heq⟩)
    omega
  · rintro ⟨row, hrow, rfl⟩
    exact Nat.le_antisymm (widthOfRows_le_iff.mpr hle)
      (widthOfRows_le_iff.mp (Nat.le_refl _) row hrow)

/-- The characters of a layout, row by row. -/
def chars (l : Layout) : List (List Char) := l.rows.map fun row ↦ row.map Glyph.char

theorem length_chars (l : Layout) : l.chars.length = l.field.size.height.toNat := by
  simp [chars, rows]

theorem length_of_mem_chars {row : List Char} (h : row ∈ l.chars) :
    row.length = l.field.size.width.toNat := by
  simp only [chars, rows, List.map_map, List.mem_map, List.mem_range] at h
  obtain ⟨_, -, rfl⟩ := h
  simp

theorem text_eq_flatMap_chars (l : Layout) :
    l.text = l.chars.flatMap fun row ↦ row ++ ['\n'] := by
  rw [text, chars, List.flatMap_map]

theorem exists_glyph_of_mem_chars {row : List Char} (h : row ∈ l.chars) {c : Char}
    (hc : c ∈ row) : ∃ g : Glyph, g.char = c := by
  obtain ⟨glyphs, -, rfl⟩ := List.mem_map.mp h
  obtain ⟨g, -, rfl⟩ := List.mem_map.mp hc
  exact ⟨g, rfl⟩

theorem not_mem_of_mem_chars {row : List Char} (h : row ∈ l.chars) {c : Char}
    (hc : ∀ g : Glyph, g.char ≠ c) : c ∉ row := by
  intro hmem
  obtain ⟨g, hg⟩ := exists_glyph_of_mem_chars h hmem
  exact hc g hg

theorem length_encode_of_mem_chars {row : List Char} (h : row ∈ l.chars) :
    (Text.Utf8.encode row).length = l.field.size.width.toNat := by
  rw [Text.Utf8.length_encode fun c hc ↦ ?_, length_of_mem_chars h]
  obtain ⟨g, rfl⟩ := exists_glyph_of_mem_chars h hc
  cases g <;> rfl

/-- Level text is its rows in bytes, and each row is ended by a newline. -/
theorem bytes_eq_flatMap (l : Layout) :
    l.bytes = (l.chars.map Text.Utf8.encode).flatMap fun row ↦ row ++ [10] := by
  have hend : Text.Utf8.encode ['\n'] = [10] := by decide
  rw [bytes, text_eq_flatMap_chars, List.flatMap_map, Text.Utf8.encode, List.flatMap_assoc]
  refine List.flatMap_congr fun row _ ↦ ?_
  rw [← hend]
  exact Text.Utf8.encode_append row ['\n']

/-- Level text has a byte for each cell, and one more for each row. -/
theorem length_bytes (l : Layout) :
    l.bytes.length = (l.field.size.width.toNat + 1) * l.field.size.height.toNat := by
  have hrow : ∀ row ∈ l.chars,
      (Text.Utf8.encode row ++ [10]).length = l.field.size.width.toNat + 1 := by
    intro row hrow
    rw [List.length_append, length_encode_of_mem_chars hrow, List.length_singleton]
  rw [bytes_eq_flatMap, List.flatMap_map, List.length_flatMap, List.map_congr_left hrow,
    List.map_const', List.sum_replicate_nat, length_chars, Nat.mul_comm]

/-- The lines of level text are the rows that were written. -/
theorem lines_text (l : Layout) : Text.lines l.text = l.chars := by
  have hkept : ∀ row ∈ l.chars, Text.dropReturn row = id row := fun row hrow ↦
    Text.dropReturn_of_not_mem (not_mem_of_mem_chars hrow Glyph.char_ne_return)
  rw [text_eq_flatMap_chars,
    Text.lines_flatMap_concat fun row hrow ↦ not_mem_of_mem_chars hrow Glyph.char_ne_newline,
    List.map_congr_left hkept, List.map_id]

/-- The characters of a layout have its glyphs on its cells. -/
theorem glyphOfRows_chars (hc : c ∈ l.field.size) :
    glyphOfRows (l.chars.map List.toArray).toArray c = l.glyphAt c := by
  obtain ⟨hcolumn, hrow⟩ := hc
  rw [UInt32.lt_iff_toNat_lt] at hcolumn hrow
  simp [glyphOfRows, chars, rows, hcolumn, hrow]

theorem ofGlyphs_congr {s : Size} {glyph glyph' : Coord → Glyph}
    (h : ∀ c ∈ s, glyph c = glyph' c) : ofGlyphs s glyph = ofGlyphs s glyph' := by
  have hfield : Field.ofFn s (fun c ↦ (glyph c).terrain) =
      Field.ofFn s fun c ↦ (glyph' c).terrain :=
    Field.ofFn_congr fun c hc ↦ congrArg Glyph.terrain (h c hc)
  have hfilter : ∀ has : Glyph → Bool,
      (s.coords.filter fun c ↦ has (glyph c)) = s.coords.filter fun c ↦ has (glyph' c) := by
    intro has
    refine List.filter_congr fun c hc ↦ ?_
    rw [h c (Size.mem_coords.mp hc)]
  rw [ofGlyphs, ofGlyphs, hfield, hfilter fun g ↦ decide (g = .mole), hfilter Glyph.hasBox,
    hfilter Glyph.hasTarget]

/-- The characters of a layout with cells are read as what was written. -/
theorem ofRows_chars (h : l.field.size.isEmpty = false) : ofRows l.chars = .ok l.written := by
  obtain ⟨hcolumns, hrows⟩ := Size.isEmpty_eq_false_iff.mp h
  have hne : l.chars ≠ [] := by
    rw [Ne, ← List.length_eq_zero_iff, length_chars]
    exact Nat.ne_of_gt hrows
  have hwidth : widthOfRows l.chars = l.field.size.width.toNat :=
    widthOfRows_eq hne fun _ ↦ length_of_mem_chars
  rw [ofRows_eq_ok_iff, hwidth, length_chars, UInt32.ofNat_toNat, UInt32.ofNat_toNat]
  exact ⟨⟨Nat.ne_of_gt hcolumns, l.field.size.width.toNat_lt, l.field.size.height.toNat_lt⟩,
    ofGlyphs_congr fun _ ↦ glyphOfRows_chars⟩

/-- Bytes that are a text are read as its lines. -/
theorem ofBytes_encode (text : List Char) :
    ofBytes (Text.Utf8.encode text) = ofRows (Text.lines text) := by
  rw [ofBytes, rowsOfBytes, Text.Utf8.decode_encode]
  rfl

/-- Bytes that are read as level text are a text. -/
theorem exists_text_of_ofBytes {bytes : List UInt8} (h : ofBytes bytes = .ok l) :
    ∃ text, bytes = Text.Utf8.encode text ∧ ofRows (Text.lines text) = .ok l := by
  cases hdecode : Text.Utf8.decode bytes with
  | error offset =>
    rw [ofBytes, rowsOfBytes, hdecode] at h
    cases h
  | ok text =>
    obtain rfl := Text.Utf8.decode_eq_ok_iff.mp hdecode
    exact ⟨text, rfl, ofBytes_encode text ▸ h⟩

/-- **Level text is read as what was written**, if there are cells. -/
theorem ofBytes_bytes (h : l.field.size.isEmpty = false) : ofBytes l.bytes = .ok l.written := by
  rw [bytes, ofBytes_encode, lines_text, ofRows_chars h]

end Layout

end MolePuzzle
