import MolePuzzle.Proofs.Base64
import MolePuzzle.Proofs.Numeral
import MolePuzzle.ShareCode

/-!
# The grammar of share codes

`ShareCode.Writes` is the grammar: what a text looks like that is read as a share code.  The size
may be written in several ways, the bytes in one only, so two codes of the same level have the same
payload (`ShareCode.decode_grammar`).

What is written is among the texts of the grammar if the bytes are laid out as the size says
(`ShareCode.IsGrid`).  Otherwise it is refused, for the size or for the bytes, as
`ShareCode.decode_encode` tells in full.
-/

set_option autoImplicit false

namespace MolePuzzle

open Text (AllBlank IsNumeral)

namespace ShareCode

variable {size : Size} {bytes : List UInt8} {s : ShareCode}

/-! ## Rows of bytes -/

/-- The bytes are as many rows, and each row is as many bytes, as the size says.  There is a newline
between any two rows, and there may be one after the last. -/
def IsGrid (size : Size) (bytes : List UInt8) : Prop :=
  ∃ rows : List (List UInt8), rows.length = size.height.toNat ∧
    (∀ row ∈ rows, row.length = size.width.toNat ∧ newline ∉ row) ∧
    (bytes = [newline].intercalate rows ∨ bytes = [newline].intercalate rows ++ [newline])

/-- A newline at the end is the only thing that rows do not show. -/
theorem intercalate_byteRows (bytes : List UInt8) :
    bytes = [newline].intercalate (byteRows bytes) ∨
      bytes = [newline].intercalate (byteRows bytes) ++ [newline] := by
  rw [byteRows, Text.split_eq_splitOn, List.intercalate_splitOn]
  split <;> rename_i hlast
  · exact .inr (List.dropLast_append_getLast? newline hlast).symm
  · exact .inl rfl

/-- Rows that are not empty are found again, with a newline after the last one or without. -/
theorem byteRows_eq {rows : List (List UInt8)} (hne : rows ≠ [])
    (hrows : ∀ row ∈ rows, row ≠ [] ∧ newline ∉ row)
    (hbytes : bytes = [newline].intercalate rows ∨
      bytes = [newline].intercalate rows ++ [newline]) : byteRows bytes = rows := by
  have hsplit : Text.split newline ([newline].intercalate rows) = rows :=
    Text.split_eq_iff.mpr ⟨hne, fun row hrow ↦ (hrows row hrow).2, rfl⟩
  rcases hbytes with rfl | rfl
  · rw [byteRows, if_neg, hsplit]
    -- After a newline at the end there would be an empty row.
    intro hlast
    obtain ⟨front, hfront⟩ := List.getLast?_eq_some_iff.mp hlast
    rw [hfront, Text.split_append_sep] at hsplit
    exact (hrows [] (hsplit ▸ by simp [Text.split])).1 rfl
  · rw [byteRows, if_pos List.getLast?_concat, List.dropLast_concat, hsplit]

theorem fits_iff (h : size.isEmpty = false) : fits size bytes = true ↔ IsGrid size bytes := by
  obtain ⟨hwidth, hheight⟩ := Size.isEmpty_eq_false_iff.mp h
  rw [fits, Bool.and_eq_true, beq_iff_eq, List.all_eq_true]
  simp only [beq_iff_eq]
  constructor
  · rintro ⟨hlength, hrows⟩
    exact ⟨byteRows bytes, hlength,
      fun row hrow ↦ ⟨hrows row hrow, Text.not_mem_of_mem_split hrow⟩, intercalate_byteRows bytes⟩
  · rintro ⟨rows, hlength, hrows, hbytes⟩
    have hne : rows ≠ [] := by
      rintro rfl
      exact absurd hlength.symm (Nat.ne_of_gt hheight)
    have hfull : ∀ row ∈ rows, row ≠ [] ∧ newline ∉ row := by
      refine fun row hrow ↦ ⟨?_, (hrows row hrow).2⟩
      rintro rfl
      exact absurd (hrows [] hrow).1.symm (Nat.ne_of_gt hwidth)
    rw [byteRows_eq hne hfull hbytes]
    exact ⟨hlength, fun row hrow ↦ (hrows row hrow).1⟩

/-! ## Segments -/

theorem dimensions?_eq_some_iff {text : List Char} :
    dimensions? text = some size ↔ Script.size? text = some size ∧ size.isEmpty = false := by
  rw [dimensions?, Option.filter_eq_some_iff, Bool.not_eq_true']

/-- What comes of a code with the right first two segments. -/
theorem ofSegments_domain_version (third payload : List Char) :
    ofSegments domain version third payload =
      match dimensions? third with
      | none => .error (.invalidDimensions third)
      | some size =>
        match Text.Base64.decode (Text.Utf8.encode payload) with
        | .error fault => .error (.invalidPayload fault)
        | .ok bytes =>
          if fits size bytes then .ok ⟨size, bytes⟩ else .error (.dimensionMismatch size) :=
  rfl

/-- **What the four segments are**, if a code is read from them. -/
theorem ofSegments_eq_ok_iff {first second third payload : List Char} :
    ofSegments first second third payload = .ok s ↔ first = domain ∧ second = version ∧
      dimensions? third = some s.size ∧ payload = Text.Base64.encode s.bytes ∧
      fits s.size s.bytes = true := by
  constructor
  · intro h
    have hfirst : first = domain := by
      by_contra hne
      rw [ofSegments, if_pos hne] at h
      cases h
    have hsecond : second = version := by
      by_contra hne
      rw [ofSegments, if_neg (not_not.mpr hfirst), if_pos hne] at h
      cases h
    rw [hfirst, hsecond, ofSegments_domain_version] at h
    split at h
    · cases h
    · rename_i hthird
      split at h
      · cases h
      · rename_i hpayload
        split at h
        · rename_i hfits
          cases h
          exact ⟨hfirst, hsecond, hthird, Text.Base64.decode_eq_ok_iff.mp hpayload, hfits⟩
        · cases h
  · rintro ⟨rfl, rfl, hthird, hpayload, hfits⟩
    rw [ofSegments_domain_version, hthird]
    simp only [Text.Base64.decode_eq_ok_iff.mpr hpayload, hfits, if_true]

theorem decode_eq_ofSegments {text first second third payload : List Char}
    (h : Text.split ':' (Text.trim text) = [first, second, third, payload]) :
    decode text = ofSegments first second third payload := by
  have hne : Text.trim text ≠ [] := by
    intro hempty
    rw [hempty] at h
    cases h
  rw [decode, if_neg hne, h]

theorem exists_split_of_decode {text : List Char} (h : decode text = .ok s) :
    ∃ first second third payload,
      Text.split ':' (Text.trim text) = [first, second, third, payload] := by
  rw [decode] at h
  split at h
  · cases h
  · split at h
    · cases h
    · cases h
    · cases h
    · cases h
    · exact ⟨_, _, _, _, ‹_›⟩
    · cases h

/-- White space around a code makes no difference. -/
theorem decode_congr {text text' : List Char} (h : Text.trim text = Text.trim text') :
    decode text = decode text' := by
  rw [decode, decode, h]

/-- A code is read exactly from its four segments. -/
theorem decode_eq_ok_iff_split {text : List Char} :
    decode text = .ok s ↔ ∃ third, Text.split ':' (Text.trim text) =
      [domain, version, third, Text.Base64.encode s.bytes] ∧ dimensions? third = some s.size ∧
      fits s.size s.bytes = true := by
  constructor
  · intro h
    obtain ⟨first, second, third, payload, hsplit⟩ := exists_split_of_decode h
    rw [decode_eq_ofSegments hsplit] at h
    obtain ⟨rfl, rfl, hthird, rfl, hfits⟩ := ofSegments_eq_ok_iff.mp h
    exact ⟨third, hsplit, hthird, hfits⟩
  · rintro ⟨third, hsplit, hthird, hfits⟩
    rw [decode_eq_ofSegments hsplit]
    exact ofSegments_eq_ok_iff.mpr ⟨rfl, rfl, hthird, rfl, hfits⟩

theorem colon_not_mem_encode (bytes : List UInt8) : ':' ∉ Text.Base64.encode bytes := by
  intro h
  obtain ⟨v, hv, hsymbol⟩ := Text.Base64.exists_symbol_of_mem_encode h
  have hall : ∀ v < 64, Text.Base64.symbol v ≠ ':' := by decide
  exact hall v hv hsymbol

/-- The four segments of a code, joined. -/
theorem split_eq_segments_iff {text third : List Char} :
    Text.split ':' text = [domain, version, third, Text.Base64.encode bytes] ↔
      text = "mole:v1:".toList ++ third ++ ':' :: Text.Base64.encode bytes ∧ ':' ∉ third := by
  have hdomain : ':' ∉ domain := by decide
  have hversion : ':' ∉ version := by decide
  have hjoin : [':'].intercalate [domain, version, third, Text.Base64.encode bytes] =
      "mole:v1:".toList ++ third ++ ':' :: Text.Base64.encode bytes := by
    simp [domain, version]
  rw [Text.split_eq_iff, hjoin]
  simp only [List.forall_mem_cons]
  constructor
  · rintro ⟨-, ⟨-, -, hthird, -⟩, rfl⟩
    exact ⟨rfl, hthird⟩
  · rintro ⟨rfl, hthird⟩
    exact ⟨List.cons_ne_nil _ _,
      ⟨hdomain, hversion, hthird, colon_not_mem_encode bytes, by simp⟩, rfl⟩

/-! ## The grammar -/

/-- The text is a writing of the code.  After the word for levels and the version come two numerals
with a cross between them, and then the bytes in base64.  White space around the numerals and how
they are written is left open; the bytes are laid out as the size says, which is not empty. -/
def Writes (text : List Char) (s : ShareCode) : Prop :=
  ∃ width cross height,
    text = "mole:v1:".toList ++ (width ++ cross :: height) ++ ':' :: Text.Base64.encode s.bytes ∧
    (cross = 'x' ∨ cross = 'X') ∧ (∀ c ∈ width, c ≠ 'x' ∧ c ≠ 'X' ∧ c ≠ ':') ∧
    IsNumeral (Text.trim width) s.size.width.toNat ∧
    IsNumeral (Text.trim height) s.size.height.toNat ∧
    1 ≤ s.size.width.toNat ∧ 1 ≤ s.size.height.toNat ∧ IsGrid s.size s.bytes

/-- There is no colon in what is a numeral when it is trimmed. -/
theorem colon_not_mem_of_isNumeral_trim {text : List Char} {n : Nat}
    (h : IsNumeral (Text.trim text) n) : ':' ∉ text := by
  intro hcolon
  rcases Text.mem_trim_or_isBlank hcolon with hcolon | hblank
  · rcases h.mem hcolon with hdigit | hplus
    · exact absurd hdigit (by decide)
    · exact absurd hplus (by decide)
  · exact absurd hblank (by decide)

/-- **A text is read as a code exactly when, trimmed, it is a writing of the code.** -/
theorem decode_eq_ok_iff_writes {text : List Char} :
    decode text = .ok s ↔ Writes (Text.trim text) s := by
  simp only [decode_eq_ok_iff_split, split_eq_segments_iff, dimensions?_eq_some_iff,
    Script.size?_eq_some_iff]
  constructor
  · rintro ⟨_, ⟨htext, hcolon⟩, ⟨⟨width, cross, height, rfl, hcross, hwidth, hw, hh⟩, hsize⟩, hfits⟩
    obtain ⟨hw1, hh1⟩ := Size.isEmpty_eq_false_iff.mp hsize
    refine ⟨width, cross, height, htext, hcross, fun c hc ↦ ?_, hw, hh, hw1, hh1,
      (fits_iff hsize).mp hfits⟩
    refine ⟨(hwidth c hc).1, (hwidth c hc).2, ?_⟩
    rintro rfl
    exact hcolon (List.mem_append_left _ hc)
  · rintro ⟨width, cross, height, htext, hcross, hwidth, hw, hh, hw1, hh1, hgrid⟩
    have hsize := Size.isEmpty_eq_false_iff.mpr ⟨hw1, hh1⟩
    refine ⟨_, ⟨htext, ?_⟩, ⟨⟨width, cross, height, rfl, hcross,
      fun c hc ↦ ⟨(hwidth c hc).1, (hwidth c hc).2.1⟩, hw, hh⟩, hsize⟩, (fits_iff hsize).mpr hgrid⟩
    rw [List.mem_append, List.mem_cons, not_or, not_or]
    refine ⟨fun hcolon ↦ (hwidth ':' hcolon).2.2 rfl, ?_, colon_not_mem_of_isNumeral_trim hh⟩
    rcases hcross with rfl | rfl <;> decide

/-! ## What is written -/

theorem encode_eq (s : ShareCode) :
    s.encode = "mole:v1:".toList ++ s.size.text ++ ':' :: Text.Base64.encode s.bytes := by
  simp [encode, header, domain, version]

/-- A written code holds no white space. -/
theorem isBlank_of_mem_encode {c : Char} (h : c ∈ s.encode) : Text.isBlank c = false := by
  have hhead : ("mole:v1:".toList.all fun c ↦ !Text.isBlank c) = true := by decide +kernel
  have hsymbol : ∀ v < 64, Text.isBlank (Text.Base64.symbol v) = false := by decide
  rw [encode_eq, List.mem_append, List.mem_append, List.mem_cons] at h
  rcases h with (h | h) | rfl | h
  · exact (Bool.not_eq_true' _).mp (List.all_eq_true.mp hhead c h)
  · rcases Script.isDigit_of_mem_text h with hdigit | rfl
    · exact Text.isBlank_of_isDigit hdigit
    · decide
  · decide
  · obtain ⟨v, hv, rfl⟩ := Text.Base64.exists_symbol_of_mem_encode h
    exact hsymbol v hv

theorem split_encode (s : ShareCode) : Text.split ':' s.encode =
    [domain, version, s.size.text, Text.Base64.encode s.bytes] := by
  refine split_eq_segments_iff.mpr ⟨encode_eq s, fun hcolon ↦ ?_⟩
  rcases Script.isDigit_of_mem_text hcolon with hdigit | hcross
  · exact absurd hdigit (by decide)
  · exact absurd hcross (by decide)

theorem dimensions?_text (size : Size) :
    dimensions? size.text = if size.isEmpty then none else some size := by
  rw [dimensions?, Script.size?_text]
  cases hsize : size.isEmpty <;> simp [Option.filter, hsize]

/-- **What comes of a written code** with any white space around it. -/
theorem decode_append_encode_append {before after : List Char} (hbefore : AllBlank before)
    (hafter : AllBlank after) (s : ShareCode) : decode (before ++ s.encode ++ after) =
      if s.size.isEmpty then .error (.invalidDimensions s.size.text)
      else if fits s.size s.bytes then .ok s else .error (.dimensionMismatch s.size) := by
  have hsplit : Text.split ':' (Text.trim (before ++ s.encode ++ after)) =
      [domain, version, s.size.text, Text.Base64.encode s.bytes] := by
    rw [Text.trim_append_append hbefore hafter, Text.trim_eq_self fun _ ↦ isBlank_of_mem_encode,
      split_encode]
  have hpayload := Text.Base64.decode_eq_ok_iff.mpr (Eq.refl (Text.Base64.encode s.bytes))
  rw [decode_eq_ofSegments hsplit, ofSegments_domain_version, dimensions?_text]
  cases s.size.isEmpty with
  | true => rfl
  | false => simp only [Bool.false_eq_true, if_false, hpayload]

theorem decode_encode (s : ShareCode) : decode s.encode =
    if s.size.isEmpty then .error (.invalidDimensions s.size.text)
    else if fits s.size s.bytes then .ok s else .error (.dimensionMismatch s.size) := by
  have hnone : AllBlank [] := List.forall_mem_nil _
  simpa using decode_append_encode_append hnone hnone s

/-! ## Both directions -/

/-- The fourth segment of a code. -/
def payload? (text : List Char) : Option (List Char) := (Text.split ':' (Text.trim text))[3]?

/-- **What is read as a share code.**  A text is read as a code exactly when, trimmed, it is a
writing of the code.  Two texts that are read as the same code have the same payload, and a code
that has been read is read again from what is written of it. -/
theorem decode_grammar :
    (∀ text s, decode text = .ok s ↔ Writes (Text.trim text) s) ∧
      (∀ text text' s, decode text = .ok s → decode text' = .ok s →
        ∃ payload, payload? text = some payload ∧ payload? text' = some payload) ∧
      ∀ text s, decode text = .ok s → decode s.encode = .ok s := by
  have hpayload : ∀ text s, decode text = .ok s →
      payload? text = some (Text.Base64.encode s.bytes) := by
    intro text s h
    obtain ⟨third, hsplit, -⟩ := decode_eq_ok_iff_split.mp h
    rw [payload?, hsplit]
    rfl
  refine ⟨fun text s ↦ decode_eq_ok_iff_writes, fun text text' s h h' ↦ ?_, fun text s h ↦ ?_⟩
  · exact ⟨_, hpayload text s h, hpayload text' s h'⟩
  · obtain ⟨third, -, hthird, hfits⟩ := decode_eq_ok_iff_split.mp h
    have hsize := (dimensions?_eq_some_iff.mp hthird).2
    rw [decode_encode, hsize, hfits]
    rfl

/-- One level in two writings: with white space, a plus sign, a zero in front and a capital cross,
and as it is written here. -/
theorem decode_grammar_spelling :
    let loose := "\tmole:v1:\u3000+02X 1 :TUYK\n".toList
    let plain := "mole:v1:2x1:TUYK".toList
    let code : ShareCode := ⟨⟨2, 1⟩, [77, 70, 10]⟩
    decode loose = .ok code ∧ decode plain = .ok code ∧ Writes (Text.trim loose) code ∧
      (∃ payload, payload? loose = some payload ∧ payload? plain = some payload) ∧
      decode code.encode = .ok code := by
  intro loose plain code
  obtain ⟨hwrites, hpayload, hagain⟩ := decode_grammar
  have hloose : decode loose = .ok code := by decide +kernel
  have hplain : decode plain = .ok code := by decide +kernel
  exact ⟨hloose, hplain, (hwrites _ _).mp hloose, hpayload _ _ _ hloose hplain, hagain _ _ hloose⟩

end ShareCode

end MolePuzzle
