/-!
# UTF-8

Bytes as text.  `encode` writes every character as its UTF-8 sequence.  `decode` reads sequences
until the bytes end, or until a byte at which no well-formed sequence starts, and then gives that
byte's offset.  `decode_eq_ok_iff` says that it reads just what `encode` writes.
-/

set_option autoImplicit false

namespace MolePuzzle.Text.Utf8

/-! ## Writing and reading -/

/-- The UTF-8 bytes of a text. -/
def encode (text : List Char) : List UInt8 := text.flatMap String.utf8EncodeChar

/-- The character whose sequence opens the bytes.  No sequence is longer than four bytes. -/
def firstChar? (bytes : List UInt8) : Option Char :=
  (bytes.take 4).toByteArray.utf8DecodeChar? 0

/-- Reads bytes of which the first one has the given offset, and of which the first `skip` belong to
a sequence that has been read. -/
def decodeFrom (offset : Nat) : (skip : Nat) → List UInt8 → Except Nat (List Char)
  | _, [] => .ok []
  | skip + 1, _ :: rest => decodeFrom (offset + 1) skip rest
  | 0, byte :: rest =>
    match firstChar? (byte :: rest) with
    | none => .error offset
    | some c => (decodeFrom (offset + 1) (c.utf8Size - 1) rest).map (c :: ·)

/-- The text of the bytes, or the offset of the first byte at which no sequence starts. -/
def decode (bytes : List UInt8) : Except Nat (List Char) := decodeFrom 0 0 bytes

/-! ## The first character -/

@[simp] theorem encode_nil : encode [] = [] := rfl

@[simp] theorem encode_cons (c : Char) (text : List Char) :
    encode (c :: text) = String.utf8EncodeChar c ++ encode text := List.flatMap_cons

@[simp] theorem encode_append (text more : List Char) :
    encode (text ++ more) = encode text ++ encode more := List.flatMap_append

theorem firstChar?_append (c : Char) (rest : List UInt8) :
    firstChar? (String.utf8EncodeChar c ++ rest) = some c := by
  have h : (String.utf8EncodeChar c).length ≤ 4 := by
    rw [String.length_utf8EncodeChar]
    exact c.utf8Size_le_four
  rw [firstChar?, List.take_append, List.take_of_length_le h, List.toByteArray_append]
  exact ByteArray.utf8DecodeChar?_utf8EncodeChar_append

theorem eq_append_of_firstChar? {bytes : List UInt8} {c : Char} (h : firstChar? bytes = some c) :
    ∃ rest, bytes = String.utf8EncodeChar c ++ rest := by
  obtain ⟨more, hmore⟩ := ByteArray.exists_of_utf8DecodeChar?_eq_some h
  refine ⟨more.data.toList ++ bytes.drop 4, ?_⟩
  have htake := congrArg (fun b : ByteArray ↦ b.data.toList) hmore
  simp only [List.data_toByteArray, ByteArray.data_append, Array.toList_append] at htake
  rw [← List.append_assoc, ← htake, List.take_append_drop]

/-! ## Reading what was written -/

theorem decodeFrom_append (offset : Nat) (read rest : List UInt8) :
    decodeFrom offset read.length (read ++ rest) = decodeFrom (offset + read.length) 0 rest := by
  induction read generalizing offset with
  | nil => rfl
  | cons byte read ih =>
    rw [List.length_cons, List.cons_append, decodeFrom, ih, Nat.add_right_comm, Nat.add_assoc]

/-- A character is read from its sequence, whatever follows it. -/
theorem decodeFrom_encodeChar_append (offset : Nat) (c : Char) (rest : List UInt8) :
    decodeFrom offset 0 (String.utf8EncodeChar c ++ rest) =
      (decodeFrom (offset + c.utf8Size) 0 rest).map (c :: ·) := by
  have hlength := String.length_utf8EncodeChar c
  have hfirst := firstChar?_append c rest
  cases hbytes : String.utf8EncodeChar c with
  | nil =>
    rw [hbytes, List.length_nil] at hlength
    exact absurd hlength.symm (Nat.ne_of_gt c.utf8Size_pos)
  | cons byte more =>
    rw [hbytes, List.length_cons] at hlength
    rw [hbytes] at hfirst
    rw [List.cons_append] at hfirst ⊢
    have hskip : c.utf8Size - 1 = more.length := by omega
    have hnext : offset + 1 + more.length = offset + c.utf8Size := by omega
    simp only [decodeFrom, hfirst, hskip, decodeFrom_append, hnext]

theorem decodeFrom_encode (offset : Nat) (text : List Char) :
    decodeFrom offset 0 (encode text) = .ok text := by
  induction text generalizing offset with
  | nil => rfl
  | cons c text ih => rw [encode_cons, decodeFrom_encodeChar_append, ih]; rfl

theorem decode_encode (text : List Char) : decode (encode text) = .ok text :=
  decodeFrom_encode 0 text

theorem encode_of_decodeFrom {bytes : List UInt8} {text : List Char} {offset : Nat}
    (h : decodeFrom offset 0 bytes = .ok text) : encode text = bytes := by
  induction hn : bytes.length using Nat.strongRecOn generalizing bytes text offset with
  | ind n ih =>
    cases bytes with
    | nil =>
      rw [decodeFrom, Except.ok.injEq] at h
      rw [← h, encode_nil]
    | cons byte more =>
      cases hfirst : firstChar? (byte :: more) with
      | none => simp [decodeFrom, hfirst] at h
      | some c =>
        obtain ⟨rest, hrest⟩ := eq_append_of_firstChar? hfirst
        have hlength := congrArg List.length hrest
        rw [hn, List.length_append, String.length_utf8EncodeChar] at hlength
        rw [hrest, decodeFrom_encodeChar_append] at h
        cases hdecode : decodeFrom (offset + c.utf8Size) 0 rest with
        | error e => rw [hdecode] at h; cases h
        | ok tail =>
          rw [hdecode] at h
          cases h
          have hpos := c.utf8Size_pos
          rw [encode_cons, ih rest.length (by omega) hdecode rfl, hrest]

/-- **The bytes of a text are read as that text, and no other bytes are.** -/
theorem decode_eq_ok_iff {bytes : List UInt8} {text : List Char} :
    decode bytes = .ok text ↔ bytes = encode text :=
  ⟨fun h ↦ (encode_of_decodeFrom h).symm, fun h ↦ h ▸ decode_encode text⟩

end MolePuzzle.Text.Utf8
