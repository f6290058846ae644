import MolePuzzle.Proofs.ShareCode
import MolePuzzle.Script.Stroke

/-!
# Sizes and strokes in short texts

What is read as a size, as the size in a share code and as a stroke of the editor, each with its
grammar: `Script.IsSizeText` and `Script.IsStrokeText` say how a text is made up, and use numerals
(`Text.IsNumeral`) and names (`Script.IsToolName`) as their parts.  Reading accepts just the texts
of the grammar, so that of the many ways to write a size or a stroke none is missed
(`Script.short_texts_exact`).

The size in a share code is read on its own there, as it must not be empty
(`ShareCode.readDimensions`); apart from that it is a size like any other.
-/

set_option autoImplicit false

namespace MolePuzzle

open Text (IsNumeral)

namespace Text

/-- Blanks and colons have no case. -/
theorem toLower_eq_self {c : Char} (h : isBlank c = true ∨ c = ':') : c.toLower = c := by
  have hcapitals : ∀ n < 91, 65 ≤ n → isBlank (Char.ofNat n) = false ∧ Char.ofNat n ≠ ':' := by
    decide
  refine dif_neg fun hcase ↦ ?_
  obtain ⟨hblank, hcolon⟩ := hcapitals c.toNat (Nat.lt_succ_of_le hcase.2) hcase.1
  rw [Char.ofNat_toNat] at hblank hcolon
  rw [hblank] at h
  exact absurd h (by simp [hcolon])

end Text

namespace Script

variable {text name : List Char} {s : Size} {k : Stroke} {tool : Tool}

/-! ## Sizes -/

/-- The text is a size.  It is cut at the first cross, of either case, into two numerals, around
which there may be white space. -/
def IsSizeText (text : List Char) (s : Size) : Prop :=
  ∃ width cross height, text = width ++ cross :: height ∧ (cross = 'x' ∨ cross = 'X') ∧
    (∀ c ∈ width, c ≠ 'x' ∧ c ≠ 'X') ∧
    IsNumeral (Text.trim width) s.width.toNat ∧ IsNumeral (Text.trim height) s.height.toNat

theorem size_eq_ok_iff_size? : size text = .ok s ↔ size? text = some s := by
  rw [size]
  cases size? text <;> simp

/-- **What is read as a size.** -/
theorem size_eq_ok_iff : size text = .ok s ↔ IsSizeText text s :=
  size_eq_ok_iff_size?.trans size?_eq_some_iff

/-! ## Strokes -/

/-- The name is one of the tool's, in any case of the letters A to Z. -/
def IsToolName (name : List Char) (tool : Tool) : Prop :=
  ∃ known, (known, tool) ∈ toolNames ∧ name.map Char.toLower = known.toList

theorem tool?_eq_some_iff : tool? name = some tool ↔ IsToolName name tool := by
  -- No name is listed twice.
  have hfind : ∀ entry ∈ toolNames,
      toolNames.find? (fun other ↦ other.1.toList == entry.1.toList) = some entry := by decide
  rw [tool?, Option.map_eq_some_iff]
  constructor
  · rintro ⟨⟨known, _⟩, hentry, rfl⟩
    have hname := List.find?_some hentry
    exact ⟨known, List.mem_of_find?_eq_some hentry, (beq_iff_eq.mp hname).symm⟩
  · rintro ⟨known, hentry, hname⟩
    exact ⟨(known, tool), by rw [hname]; exact hfind _ hentry, rfl⟩

/-- The text is a stroke.  It is cut at its first colon, and what follows at its first comma, into
the name of a tool and two numerals, around which there may be white space. -/
def IsStrokeText (text : List Char) (k : Stroke) : Prop :=
  ∃ name column row, text = name ++ ':' :: (column ++ ',' :: row) ∧ ':' ∉ name ∧ ',' ∉ column ∧
    IsToolName (Text.trim name) k.tool ∧ IsNumeral (Text.trim column) k.cell.column.toNat ∧
    IsNumeral (Text.trim row) k.cell.row.toNat

theorem strokeParts?_eq_some_iff {cell : Coord} : strokeParts? text = some (name, cell) ↔
    ∃ before column row, text = before ++ ':' :: (column ++ ',' :: row) ∧ ':' ∉ before ∧
      ',' ∉ column ∧ Text.trim before = name ∧ IsNumeral (Text.trim column) cell.column.toNat ∧
      IsNumeral (Text.trim row) cell.row.toNat := by
  simp only [strokeParts?, Option.bind_eq_bind, Option.bind_eq_some_iff, Prod.exists,
    Text.cut?_beq_eq_some_iff, Text.word?_eq_some_iff, Option.pure_def, Option.some.injEq,
    Prod.mk.injEq]
  constructor
  · rintro ⟨before, _, ⟨rfl, hbefore⟩, column, row, ⟨rfl, hcolumn⟩, m, hm, n, hn, hname, rfl⟩
    exact ⟨before, column, row, rfl, hbefore, hcolumn, hname, hm, hn⟩
  · rintro ⟨before, column, row, rfl, hbefore, hcolumn, hname, hm, hn⟩
    exact ⟨before, _, ⟨rfl, hbefore⟩, column, row, ⟨rfl, hcolumn⟩, _, hm, _, hn, hname, rfl⟩

/-- **What is read as a stroke.** -/
theorem stroke_eq_ok_iff : stroke text = .ok k ↔ IsStrokeText text k := by
  have hread : stroke text = .ok k ↔
      ∃ name, strokeParts? text = some (name, k.cell) ∧ tool? name = some k.tool := by
    rw [stroke]
    cases strokeParts? text with
    | none => simp
    | some parts =>
      obtain ⟨name, cell⟩ := parts
      cases htool : tool? name with
      | none => simp [htool]
      | some tool => cases k; simp [htool, and_comm, eq_comm]
  rw [hread]
  simp only [strokeParts?_eq_some_iff, tool?_eq_some_iff]
  constructor
  · rintro ⟨_, ⟨name, column, row, htext, hname, hcolumn, rfl, hm, hn⟩, htool⟩
    exact ⟨name, column, row, htext, hname, hcolumn, htool, hm, hn⟩
  · rintro ⟨name, column, row, htext, hname, hcolumn, htool, hm, hn⟩
    exact ⟨_, ⟨name, column, row, htext, hname, hcolumn, rfl, hm, hn⟩, htool⟩

/-! ## Strokes in writing -/

/-- A stroke in writing, its tool given by name. -/
def strokeText (name : List Char) (c : Coord) : List Char :=
  name ++ ':' :: (Nat.toDigits 10 c.column.toNat ++ ',' :: Nat.toDigits 10 c.row.toNat)

/-- There is neither a blank nor a colon in the name of a tool. -/
theorem IsToolName.of_mem (h : IsToolName name tool) {c : Char} (hc : c ∈ name) :
    Text.isBlank c = false ∧ c ≠ ':' := by
  have hknown : ∀ entry ∈ toolNames, ∀ c ∈ entry.1.toList, Text.isBlank c = false ∧ c ≠ ':' := by
    simp [toolNames, Text.isBlank]
  obtain ⟨known, hentry, hname⟩ := h
  by_contra hbad
  have hbad : Text.isBlank c = true ∨ c = ':' := by
    rwa [not_and_or, Bool.not_eq_false, not_not] at hbad
  have hmem : c ∈ known.toList := by
    rw [← hname, ← Text.toLower_eq_self hbad]
    exact List.mem_map_of_mem hc
  obtain ⟨hblank, hcolon⟩ := hknown _ hentry c hmem
  rw [hblank] at hbad
  exact absurd hbad (by simp [hcolon])

/-- **A stroke in writing is read back.** -/
theorem stroke_strokeText (h : IsToolName name tool) (c : Coord) :
    stroke (strokeText name c) = .ok ⟨tool, c⟩ := by
  have hname : ':' ∉ name := fun hcolon ↦ (h.of_mem hcolon).2 rfl
  refine stroke_eq_ok_iff.mpr ⟨name, _, _, rfl, hname, ?_, ?_, ?_, ?_⟩
  · exact fun hcomma ↦ absurd (Text.isDigit_of_mem_toDigits hcomma) (by decide)
  · rwa [Text.trim_eq_self fun c hc ↦ (h.of_mem hc).1]
  · exact Text.isNumeral_trim_toDigits _
  · exact Text.isNumeral_trim_toDigits _

end Script

/-! ## The size in a share code -/

namespace ShareCode

variable {text : List Char} {s : Size}

/-- Reads the size in a share code by steps of its own. -/
def readDimensions (text : List Char) : Except ShareError Size :=
  match Text.cut? Script.isCross text with
  | none => .error (.invalidDimensions text)
  | some (width, height) =>
    match Text.word? (Text.trim width), Text.word? (Text.trim height) with
    | some width, some height =>
      if width = 0 ∨ height = 0 then .error (.invalidDimensions text) else .ok ⟨width, height⟩
    | _, _ => .error (.invalidDimensions text)

/-- **The steps lead to the size that the code is read with**, and are refused together. -/
theorem readDimensions_eq (text : List Char) : readDimensions text =
    match dimensions? text with
    | none => .error (.invalidDimensions text)
    | some s => .ok s := by
  rw [readDimensions, dimensions?, Script.size?]
  cases Text.cut? Script.isCross text with
  | none => rfl
  | some parts =>
    obtain ⟨width, height⟩ := parts
    cases hwidth : Text.word? (Text.trim width) with
    | none => simp [hwidth]
    | some w =>
      cases hheight : Text.word? (Text.trim height) with
      | none => simp [hwidth, hheight]
      | some h =>
        have hempty : (w = 0 ∨ h = 0) ↔ (⟨w, h⟩ : Size).isEmpty = true := by simp [Size.isEmpty]
        simp only [hwidth, hheight, hempty, Option.bind_eq_bind, Option.bind_some, Option.pure_def,
          Option.filter_some]
        cases (⟨w, h⟩ : Size).isEmpty <;> rfl

/-- **It is a size like any other**, but not an empty one. -/
theorem readDimensions_eq_ok_iff : readDimensions text = .ok s ↔
    Script.size text = .ok s ∧ s.width ≠ 0 ∧ s.height ≠ 0 := by
  have hread : readDimensions text = .ok s ↔ dimensions? text = some s := by
    rw [readDimensions_eq]
    cases dimensions? text <;> simp
  rw [hread, dimensions?_eq_some_iff, Script.size_eq_ok_iff_size?, Size.isEmpty,
    Bool.or_eq_false_iff, beq_eq_false_iff_ne, beq_eq_false_iff_ne]

end ShareCode

/-! ## The whole -/

namespace Script

/-- **What is read of short texts**, and that it is what was written.

* A text is read as a size exactly if it is one by the grammar of sizes.
* The size in a share code is read exactly if it is read as a size and neither dimension is zero.
* A text is read as a stroke exactly if it is one by the grammar of strokes.
* A size in writing is read as that size, and a stroke in writing, by any name of its tool, as that
  tool on that cell. -/
theorem short_texts_exact :
    (∀ text s, size text = .ok s ↔ IsSizeText text s) ∧
    (∀ text s, ShareCode.readDimensions text = .ok s ↔
      size text = .ok s ∧ s.width ≠ 0 ∧ s.height ≠ 0) ∧
    (∀ text, ShareCode.dimensions? text = (ShareCode.readDimensions text).toOption) ∧
    (∀ text k, stroke text = .ok k ↔ IsStrokeText text k) ∧
    (∀ s : Size, size s.text = .ok s) ∧
    ∀ name tool, IsToolName name tool → ∀ c, stroke (strokeText name c) = .ok ⟨tool, c⟩ := by
  refine ⟨fun _ _ ↦ size_eq_ok_iff, fun _ _ ↦ ShareCode.readDimensions_eq_ok_iff, fun text ↦ ?_,
    fun _ _ ↦ stroke_eq_ok_iff, fun s ↦ size_eq_ok_iff_size?.mpr (size?_text s),
    fun _ _ ↦ stroke_strokeText⟩
  rw [ShareCode.readDimensions_eq]
  cases ShareCode.dimensions? text <;> rfl

/-- The largest number, in a size and in a stroke, and the one after it. -/
theorem short_texts_exact_largest :
    let loose := "\u3000+04294967295 X 007\t".toList
    let name := "Active-BOX".toList
    size loose = .ok ⟨4294967295, 7⟩ ∧ IsSizeText loose ⟨4294967295, 7⟩ ∧
      ShareCode.readDimensions loose = .ok ⟨4294967295, 7⟩ ∧
      (∀ s, ¬ IsSizeText "4294967296x7".toList s) ∧
      IsToolName name .placedBox ∧
      strokeText name ⟨4294967295, 0⟩ = "Active-BOX:4294967295,0".toList ∧
      stroke (strokeText name ⟨4294967295, 0⟩) = .ok ⟨.placedBox, ⟨4294967295, 0⟩⟩ := by
  intro loose name
  obtain ⟨hsize, hdimensions, -, -, -, hstroke⟩ := short_texts_exact
  have hloose : size loose = .ok ⟨4294967295, 7⟩ := by decide +kernel
  have hbeyond : size "4294967296x7".toList = .error (.invalidSize "4294967296x7".toList) := by
    decide +kernel
  have hname : IsToolName name .placedBox := ⟨"active-box", by decide, by decide⟩
  refine ⟨hloose, (hsize _ _).mp hloose, (hdimensions _ _).mpr ⟨hloose, by decide, by decide⟩,
    fun s hs ↦ ?_, hname, by decide, hstroke _ _ hname _⟩
  rw [← hsize, hbeyond] at hs
  cases hs

end Script

end MolePuzzle
