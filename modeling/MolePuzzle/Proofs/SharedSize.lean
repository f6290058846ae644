import MolePuzzle.Proofs.Sharing

/-!
# The size of a shared level

A share code is checked by counting bytes, and a level is read by counting characters.  The two
counts of rows agree, but those of columns need not: a character can have several bytes, and a
carriage return before the end of a line is a byte and no column.  So a code can be accepted and its
level be narrower than the code says (`ShareCode.narrower_level`).

`ShareCode.size_eq_iff_hasFullRow` says when the sizes agree: some row has to be full, which means
that each of its bytes is a column.
-/

set_option autoImplicit false

namespace MolePuzzle

/-! ## Lines and rows of bytes -/

namespace Text

variable {text row rest : List Char} {ended : List (List Char)}

/-- The lines of a text are its pieces, of which the last is not ended. -/
theorem lines_of_split (h : split '\n' text = ended ++ [rest]) :
    lines text = ended.map dropReturn ++ if rest.isEmpty then [] else [rest] := by
  simp [lines, h]

theorem length_dropReturn_le (row : List Char) :
    (dropReturn row).length ≤ (Utf8.encode row).length := by
  have hle := Utf8.length_le_length_encode row
  rw [dropReturn]
  split
  · rw [List.length_dropLast]
    omega
  · exact hle

/-- A line is as long as its bytes if each of them is a character and none is part of its end. -/
theorem length_dropReturn_eq_iff : (dropReturn row).length = (Utf8.encode row).length ↔
    (∀ byte ∈ Utf8.encode row, byte < 128) ∧ (Utf8.encode row).getLast? ≠ some 13 := by
  have hreturn : (Utf8.encode row).getLast? = some 13 ↔ row.getLast? = some '\r' :=
    Utf8.getLast?_encode_eq_some_iff (c := '\r') (by decide)
  rw [dropReturn, Ne, hreturn]
  split <;> rename_i hlast
  · have hle := Utf8.length_le_length_encode row
    have hpos := List.length_pos_of_mem (List.mem_of_getLast? hlast)
    rw [List.length_dropLast]
    exact iff_of_false (by omega) fun h ↦ h.2 hlast
  · rw [and_iff_left hlast, Utf8.length_eq_length_encode_iff]

end Text

namespace ShareCode

variable {size : Size} {bytes : List UInt8} {text : List Char}

/-- Some row of bytes is a column in each of its bytes: all are characters of their own, and none is
a carriage return that belongs to the line end.  What follows the last newline has no line end. -/
def HasFullRow (bytes : List UInt8) : Prop :=
  (∃ row ∈ (Text.split newline bytes).dropLast,
    (∀ byte ∈ row, byte < 128) ∧ row.getLast? ≠ some 13) ∨
  ∃ row ∈ (Text.split newline bytes).getLast?, row ≠ [] ∧ ∀ byte ∈ row, byte < 128

/-- Rows of bytes are those of the pieces of the text. -/
theorem split_newline_encode (text : List Char) :
    Text.split newline (Text.Utf8.encode text) = (Text.split '\n' text).map Text.Utf8.encode :=
  Text.Utf8.split_encode (c := '\n') (by decide) text

/-- Bytes that are laid out as a size says are cut into its rows, and after a newline at the end
nothing is left. -/
theorem split_newline_of_isGrid (hsize : size.isEmpty = false) (h : IsGrid size bytes) :
    ∃ rows : List (List UInt8), rows.length = size.height.toNat ∧
      (∀ row ∈ rows, row.length = size.width.toNat) ∧
      (Text.split newline bytes = rows ∨ Text.split newline bytes = rows ++ [[]]) := by
  obtain ⟨rows, hlength, hrows, hbytes⟩ := h
  have hne : rows ≠ [] := by
    rintro rfl
    exact absurd hlength.symm (Nat.ne_of_gt (Size.isEmpty_eq_false_iff.mp hsize).2)
  have hsplit : Text.split newline ([newline].intercalate rows) = rows :=
    Text.split_eq_iff.mpr ⟨hne, fun row hrow ↦ (hrows row hrow).2, rfl⟩
  refine ⟨rows, hlength, fun row hrow ↦ (hrows row hrow).1, hbytes.imp ?_ ?_⟩
  · rintro rfl
    exact hsplit
  · rintro rfl
    rw [Text.split_append_sep, hsplit]
    rfl

/-- A text whose bytes are laid out as a size says has as many lines as the size has rows, each from
as many bytes as there are columns. -/
theorem exists_pieces_of_isGrid (hsize : size.isEmpty = false)
    (h : IsGrid size (Text.Utf8.encode text)) :
    ∃ ended rest, Text.split '\n' text = ended ++ [rest] ∧
      (Text.lines text).length = size.height.toNat ∧
      (∀ row ∈ ended, (Text.Utf8.encode row).length = size.width.toNat) ∧
      (rest ≠ [] → (Text.Utf8.encode rest).length = size.width.toNat) := by
  obtain ⟨rows, hlength, hrows, hsplit⟩ := split_newline_of_isGrid hsize h
  obtain hnil | ⟨ended, rest, hpieces⟩ := List.eq_nil_or_concat (Text.split '\n' text)
  · exact absurd hnil (Text.split_ne_nil '\n' text)
  rw [List.concat_eq_append] at hpieces
  rw [split_newline_encode, hpieces, List.map_append, List.map_singleton] at hsplit
  refine ⟨ended, rest, hpieces, ?_⟩
  rw [Text.lines_of_split hpieces, List.length_append, List.length_map]
  rcases hsplit with hsplit | hsplit
  · -- The last row is open.
    rw [← hsplit, List.forall_mem_append, List.forall_mem_map, List.forall_mem_singleton] at hrows
    obtain ⟨hended, hopen⟩ := hrows
    have hrest : rest ≠ [] := by
      rintro rfl
      exact absurd hopen.symm (Nat.ne_of_gt (Size.isEmpty_eq_false_iff.mp hsize).1)
    refine ⟨?_, hended, fun _ ↦ hopen⟩
    rw [if_neg (by simpa using hrest), ← hlength, ← hsplit, List.length_append, List.length_map]
    rfl
  · -- The last row is ended, and nothing follows.
    obtain ⟨rfl, hopen⟩ := List.append_inj' hsplit rfl
    have hrest : rest = [] := Text.Utf8.encode_inj.mp (List.singleton_inj.mp hopen)
    rw [List.forall_mem_map] at hrows
    refine ⟨?_, hrows, absurd hrest⟩
    rw [hrest, ← hlength, List.length_map]
    rfl

/-- The lines are no longer than the rows of bytes, and some line is as long if some row is full. -/
theorem widthOfRows_of_isGrid (hsize : size.isEmpty = false)
    (h : IsGrid size (Text.Utf8.encode text)) :
    Layout.widthOfRows (Text.lines text) ≤ size.width.toNat ∧
      (Layout.widthOfRows (Text.lines text) = size.width.toNat ↔
        HasFullRow (Text.Utf8.encode text)) := by
  obtain ⟨ended, rest, hpieces, -, hended, hrest⟩ := exists_pieces_of_isGrid hsize h
  have hmem : ∀ line, line ∈ Text.lines text ↔
      (∃ row ∈ ended, Text.dropReturn row = line) ∨ rest ≠ [] ∧ line = rest := by
    intro line
    rw [Text.lines_of_split hpieces, List.mem_append, List.mem_map]
    cases rest <;> simp
  have hle : ∀ line ∈ Text.lines text, line.length ≤ size.width.toNat := by
    intro line hline
    rcases (hmem line).mp hline with ⟨row, hrow, rfl⟩ | ⟨hne, rfl⟩
    · exact hended row hrow ▸ Text.length_dropReturn_le row
    · exact hrest hne ▸ Text.Utf8.length_le_length_encode line
  refine ⟨Layout.widthOfRows_le_iff.mpr hle, ?_⟩
  rw [Layout.widthOfRows_eq_iff (Size.isEmpty_eq_false_iff.mp hsize).1 hle, HasFullRow,
    split_newline_encode, hpieces, List.map_append, List.map_singleton, List.dropLast_concat,
    List.getLast?_concat]
  constructor
  · rintro ⟨line, hline, hlength⟩
    rcases (hmem line).mp hline with ⟨row, hrow, rfl⟩ | ⟨hne, rfl⟩
    · rw [← hended row hrow] at hlength
      exact .inl ⟨_, List.mem_map_of_mem hrow, Text.length_dropReturn_eq_iff.mp hlength⟩
    · rw [← hrest hne] at hlength
      refine .inr ⟨_, rfl, ?_, Text.Utf8.length_eq_length_encode_iff.mp hlength⟩
      exact fun hempty ↦ hne (Text.Utf8.encode_inj.mp hempty)
  · rintro (⟨_, hbytes, hfull⟩ | ⟨_, hlast, hne, hfull⟩)
    · obtain ⟨row, hrow, rfl⟩ := List.mem_map.mp hbytes
      refine ⟨_, (hmem _).mpr (.inl ⟨row, hrow, rfl⟩), ?_⟩
      rw [Text.length_dropReturn_eq_iff.mpr hfull, hended row hrow]
    · obtain rfl := Option.mem_some_iff.mp hlast
      have hne : rest ≠ [] := fun hempty ↦ hne (by rw [hempty, Text.Utf8.encode_nil])
      refine ⟨rest, (hmem _).mpr (.inr ⟨hne, rfl⟩), ?_⟩
      rw [Text.Utf8.length_eq_length_encode_iff.mpr hfull, hrest hne]

/-- **The size of a shared level.**  When a code is read and its bytes are loaded, the level has as
many rows as the code says and no more columns, and it has the size of the code exactly if some row
is full. -/
theorem size_eq_iff_hasFullRow {code : List Char} {s : ShareCode} {w : World}
    (hcode : decode code = .ok s) (hload : World.ofBytes s.bytes = .ok w) :
    w.field.size.height = s.size.height ∧ w.field.size.width ≤ s.size.width ∧
      (w.field.size = s.size ↔ HasFullRow s.bytes) := by
  obtain ⟨third, -, hthird, hfits⟩ := decode_eq_ok_iff_split.mp hcode
  have hsize := (dimensions?_eq_some_iff.mp hthird).2
  have hgrid := (fits_iff hsize).mp hfits
  obtain ⟨text, htext, hlayout⟩ := Layout.exists_text_of_ofBytes (World.layout_of_ofBytes hload)
  rw [htext] at hgrid ⊢
  obtain ⟨hwidth, hheight⟩ := Layout.size_of_ofRows hlayout
  obtain ⟨-, -, -, hlines, -⟩ := exists_pieces_of_isGrid hsize hgrid
  obtain ⟨hle, hfull⟩ := widthOfRows_of_isGrid hsize hgrid
  rw [← hwidth] at hle hfull
  have hheight : w.field.size.height = s.size.height :=
    UInt32.toNat_inj.mp (hheight.trans hlines)
  refine ⟨hheight, UInt32.le_iff_toNat_le.mpr hle, ?_⟩
  rw [← hfull, UInt32.toNat_inj]
  exact ⟨congrArg Size.width, fun hwidth ↦ Size.mk.injEq .. ▸ ⟨hwidth, hheight⟩⟩

/-- The first row of the level ends with a carriage return, and the second row is full. -/
theorem size_eq_iff_hasFullRow_mixed :
    let code := "mole:v1:2x2:Rg0KTUYK".toList
    let s : ShareCode := ⟨⟨2, 2⟩, [70, 13, 10, 77, 70, 10]⟩
    decode code = .ok s ∧ ∃ w, World.ofBytes s.bytes = .ok w ∧ w.field.size.height = s.size.height ∧
      w.field.size.width ≤ s.size.width ∧ HasFullRow s.bytes ∧ w.field.size = s.size := by
  intro code s
  have hcode : decode code = .ok s := by decide +kernel
  have hload : World.ofBytes s.bytes = .ok _ := rfl
  have hlow : ∀ byte ∈ ([77, 70] : List UInt8), byte < 128 := by
    rw [List.forall_mem_cons, List.forall_mem_singleton]
    decide
  have hfull : HasFullRow s.bytes := .inl ⟨[77, 70], by decide, hlow, by decide⟩
  obtain ⟨hheight, hwidth, hsize⟩ := size_eq_iff_hasFullRow hcode hload
  exact ⟨hcode, _, hload, hheight, hwidth, hfull, hsize.mpr hfull⟩

/-- **A level can be narrower than its code says.**  Both codes are for two columns.  The bytes of
the first are a floor, a carriage return and a newline, and those of the second are one character of
two bytes. -/
theorem narrower_level :
    let codes := ["mole:v1:2x1:Rg0K".toList, "mole:v1:2x1:w6k".toList]
    ∀ code ∈ codes, ∃ s w, decode code = .ok s ∧ World.ofBytes s.bytes = .ok w ∧
      s.size = ⟨2, 1⟩ ∧ w.field.size = ⟨1, 1⟩ := by
  intro codes
  rw [List.forall_mem_cons, List.forall_mem_singleton]
  have hreturn : decode "mole:v1:2x1:Rg0K".toList = .ok ⟨⟨2, 1⟩, [70, 13, 10]⟩ := by decide +kernel
  have haccent : decode "mole:v1:2x1:w6k".toList = .ok ⟨⟨2, 1⟩, [195, 169]⟩ := by decide +kernel
  exact ⟨⟨_, _, hreturn, rfl, rfl, rfl⟩, ⟨_, _, haccent, rfl, rfl, rfl⟩⟩

end ShareCode

end MolePuzzle
