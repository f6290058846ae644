import Mathlib.Data.List.Basic
import MolePuzzle.Text.Split
import MolePuzzle.Text.Utf8

/-!
# Texts and their bytes

What can be told of a text from its bytes.  Characters below 128 are single bytes that occur in no
other character, so they are found among the bytes just where they are in the text
(`Utf8.mem_encode_iff`), and the bytes can be cut at them like the text (`Utf8.split_encode`).  There
are more bytes than characters unless all characters are of this kind
(`Utf8.length_eq_length_encode_iff`).
-/

set_option autoImplicit false

namespace MolePuzzle.Text.Utf8

variable {c : Char} {text : List Char}

theorem encodeChar_of_lt (h : c.toNat < 128) :
    String.utf8EncodeChar c = [UInt8.ofNat c.toNat] := by
  rw [String.utf8EncodeChar]
  exact if_pos (Nat.le_of_lt_succ h)

/-- A character that is no byte below 128 is several bytes from 128 on. -/
theorem encodeChar_of_le (h : 128 ≤ c.toNat) :
    1 < (String.utf8EncodeChar c).length ∧ ∀ byte ∈ String.utf8EncodeChar c, ¬ byte < 128 := by
  simp only [UInt8.lt_iff_toNat_lt]
  rw [String.utf8EncodeChar]
  split
  · rename_i hle
    exact absurd hle (Nat.not_le.mpr h)
  · split
    · simp
      omega
    · split
      · simp
        omega
      · simp
        omega

/-- A character of one byte is found in the bytes of no other character. -/
theorem mem_encodeChar_iff (hc : c.toNat < 128) {d : Char} :
    UInt8.ofNat c.toNat ∈ String.utf8EncodeChar d ↔ c = d := by
  have hbyte : (UInt8.ofNat c.toNat).toNat = c.toNat :=
    UInt8.toNat_ofNat_of_lt' (Nat.lt_trans hc (by decide))
  constructor
  · intro h
    rcases Nat.lt_or_ge d.toNat 128 with hd | hd
    · rw [encodeChar_of_lt hd, List.mem_singleton, ← UInt8.toNat_inj, hbyte,
        UInt8.toNat_ofNat_of_lt' (Nat.lt_trans hd (by decide))] at h
      exact Char.toNat_inj.mp h
    · have hhigh := (encodeChar_of_le hd).2 _ h
      rw [UInt8.lt_iff_toNat_lt, hbyte] at hhigh
      exact absurd hc hhigh
  · rintro rfl
    rw [encodeChar_of_lt hc]
    exact List.mem_singleton_self _

theorem mem_encode_iff (hc : c.toNat < 128) : UInt8.ofNat c.toNat ∈ encode text ↔ c ∈ text := by
  rw [encode, List.mem_flatMap]
  simp only [mem_encodeChar_iff hc, exists_eq_right']

theorem getLast?_encode_eq_some_iff (hc : c.toNat < 128) :
    (encode text).getLast? = some (UInt8.ofNat c.toNat) ↔ text.getLast? = some c := by
  rcases List.eq_nil_or_concat text with rfl | ⟨front, d, rfl⟩
  · simp
  · have hlength : (String.utf8EncodeChar d).length ≠ 0 := by
      rw [String.length_utf8EncodeChar]
      exact Nat.ne_of_gt d.utf8Size_pos
    have hlast : (encode (front ++ [d])).getLast? = (String.utf8EncodeChar d).getLast? := by
      rw [encode_append, encode_cons, encode_nil, List.append_nil]
      exact List.getLast?_append_of_ne_nil _ (mt List.length_eq_zero_iff.mpr hlength)
    rw [List.concat_eq_append, hlast, List.getLast?_concat, Option.some.injEq]
    constructor
    · intro h
      exact ((mem_encodeChar_iff hc).mp (List.mem_of_getLast? h)).symm
    · rintro rfl
      rw [encodeChar_of_lt hc]
      rfl

theorem length_le_length_encode (text : List Char) : text.length ≤ (encode text).length := by
  induction text with
  | nil => exact Nat.le_refl _
  | cons c text ih =>
    have hpos := c.utf8Size_pos
    rw [encode_cons, List.length_append, List.length_cons, String.length_utf8EncodeChar]
    omega

/-- There are as many characters as bytes if no byte is part of a longer character. -/
theorem length_eq_length_encode_iff :
    text.length = (encode text).length ↔ ∀ byte ∈ encode text, byte < 128 := by
  induction text with
  | nil => simp
  | cons c text ih =>
    rw [encode_cons, List.length_append, List.length_cons, List.forall_mem_append]
    rcases Nat.lt_or_ge c.toNat 128 with hc | hc
    · have hbyte : UInt8.ofNat c.toNat < 128 := by
        rw [UInt8.lt_iff_toNat_lt, UInt8.toNat_ofNat_of_lt' (Nat.lt_trans hc (by decide))]
        exact hc
      rw [encodeChar_of_lt hc, List.forall_mem_singleton, and_iff_right hbyte, ← ih,
        List.length_singleton, Nat.add_comm 1, Nat.add_right_cancel_iff]
    · obtain ⟨hlength, hhigh⟩ := encodeChar_of_le hc
      have hle := length_le_length_encode text
      obtain ⟨byte, hbyte⟩ := List.exists_mem_of_length_pos (Nat.lt_trans Nat.zero_lt_one hlength)
      exact iff_of_false (by omega) fun hlow ↦ hhigh byte hbyte (hlow.1 byte hbyte)

/-- A text is known from its bytes. -/
theorem encode_inj {text text' : List Char} : encode text = encode text' ↔ text = text' := by
  refine ⟨fun h ↦ ?_, congrArg _⟩
  have hdecode := congrArg decode h
  rwa [decode_encode, decode_encode, Except.ok.injEq] at hdecode

/-- A text of one-byte characters has as many bytes as characters. -/
theorem length_encode (h : ∀ c ∈ text, c.utf8Size = 1) : (encode text).length = text.length := by
  induction text with
  | nil => rfl
  | cons c text ih =>
    obtain ⟨hc, htext⟩ := List.forall_mem_cons.mp h
    rw [encode_cons, List.length_append, String.length_utf8EncodeChar, hc, ih htext,
      List.length_cons, Nat.add_comm]

/-- The bytes of joined texts are the joined bytes of the texts. -/
theorem encode_intercalate (sep : List Char) (texts : List (List Char)) :
    encode (sep.intercalate texts) = (encode sep).intercalate (texts.map encode) := by
  induction texts with
  | nil => rfl
  | cons first rest ih =>
    cases rest with
    | nil => simp
    | cons next rest =>
      rw [List.intercalate_cons_cons, encode_append, encode_append, ih]
      simp only [List.map_cons, List.intercalate_cons_cons]

/-- Bytes are cut at a character of one byte like the text. -/
theorem split_encode (hc : c.toNat < 128) (text : List Char) :
    split (UInt8.ofNat c.toNat) (encode text) = (split c text).map encode := by
  have hsep : encode [c] = [UInt8.ofNat c.toNat] := by
    rw [encode_cons, encodeChar_of_lt hc, encode_nil, List.append_nil]
  refine split_eq_iff.mpr ⟨?_, ?_, ?_⟩
  · rw [Ne, List.map_eq_nil_iff]
    exact split_ne_nil c text
  · rw [List.forall_mem_map]
    intro piece hpiece
    rw [mem_encode_iff hc]
    exact not_mem_of_mem_split hpiece
  · rw [← hsep, ← encode_intercalate, split_eq_splitOn, List.intercalate_splitOn]

end MolePuzzle.Text.Utf8
