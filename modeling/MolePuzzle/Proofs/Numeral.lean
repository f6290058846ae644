import Mathlib.Data.List.TakeWhile
import MolePuzzle.Script.Dimensions

/-!
# Numerals and sizes in writing

What is read as a numeral, and as a size.  `Text.IsNumeral` is the grammar of numerals, with the
value of its digits in the decimal system, and `Script.size?_eq_some_iff` that of sizes.  They are
wider than what is written: there may be a plus sign, zeros in front, a capital `X` and white space.
What is written is among it, and is read back (`Script.size?_text`).
-/

set_option autoImplicit false

namespace MolePuzzle

namespace Text

/-! ## White space -/

/-- There is nothing but white space. -/
def AllBlank (text : List Char) : Prop := ∀ c ∈ text, isBlank c = true

instance (text : List Char) : Decidable (AllBlank text) :=
  List.decidableBAll (fun c ↦ isBlank c = true) text

/-- White space around a text makes no difference. -/
theorem trim_append_append {before after : List Char} (hbefore : AllBlank before)
    (hafter : AllBlank after) (text : List Char) : trim (before ++ text ++ after) = trim text := by
  rw [trim, trim, List.append_assoc, List.dropWhile_append_of_pos hbefore, List.dropWhile_append]
  split <;> rename_i hempty
  · rw [List.dropWhile_eq_nil_iff.mpr hafter, List.isEmpty_iff.mp hempty]
  · have hreverse : ∀ c ∈ after.reverse, isBlank c = true :=
      fun c hc ↦ hafter c (List.mem_reverse.mp hc)
    rw [List.reverse_append, List.dropWhile_append_of_pos hreverse]

theorem trim_eq_self {text : List Char} (h : ∀ c ∈ text, isBlank c = false) :
    trim text = text := by
  have hkept : ∀ l : List Char, (∀ c ∈ l, isBlank c = false) → l.dropWhile isBlank = l := by
    intro l hl
    cases l with
    | nil => rfl
    | cons c l => rw [List.dropWhile_cons_of_neg (by simp [hl c List.mem_cons_self])]
  rw [trim, hkept text h, hkept _ (by simpa using h), List.reverse_reverse]

/-- A text is what is left of it when it is trimmed, with white space around. -/
theorem exists_eq_append_trim (text : List Char) :
    ∃ before after, AllBlank before ∧ AllBlank after ∧ text = before ++ trim text ++ after := by
  refine ⟨text.takeWhile isBlank, ((text.dropWhile isBlank).reverse.takeWhile isBlank).reverse,
    fun c ↦ List.mem_takeWhile_imp, fun c hc ↦ ?_, ?_⟩
  · exact List.mem_takeWhile_imp (List.mem_reverse.mp hc)
  · rw [trim, List.append_assoc, ← List.reverse_append, List.takeWhile_append_dropWhile,
      List.reverse_reverse, List.takeWhile_append_dropWhile]

/-- Trimming takes away nothing but white space. -/
theorem mem_trim_or_isBlank {text : List Char} {c : Char} (h : c ∈ text) :
    c ∈ trim text ∨ isBlank c = true := by
  obtain ⟨before, after, hbefore, hafter, htext⟩ := exists_eq_append_trim text
  rw [htext, List.mem_append, List.mem_append] at h
  rcases h with (h | h) | h
  · exact .inr (hbefore c h)
  · exact .inl h
  · exact .inr (hafter c h)

/-! ## Numerals -/

/-- The text is a numeral of the given value: one digit or more, with a plus sign before them or
without. -/
def IsNumeral (text : List Char) (n : Nat) : Prop :=
  ∃ digits, (text = digits ∨ text = '+' :: digits) ∧ digits ≠ [] ∧
    (∀ c ∈ digits, c.isDigit = true) ∧ Nat.ofDigitChars 10 digits 0 = n

theorem digit?_eq_some_iff {c : Char} {n : Nat} :
    digit? c = some n ↔ c.isDigit = true ∧ c.toNat - '0'.toNat = n := by
  have hdigit : '0' ≤ c ∧ c ≤ '9' ↔ c.isDigit = true := by
    rw [Char.isDigit, Bool.and_eq_true, decide_eq_true_eq, decide_eq_true_eq]
    exact Iff.rfl
  rw [digit?, Option.ite_none_right_eq_some, Option.some.injEq, hdigit]

theorem digitsFrom?_eq_some_iff {acc n : Nat} {text : List Char} :
    digitsFrom? acc text = some n ↔
      (∀ c ∈ text, c.isDigit = true) ∧ Nat.ofDigitChars 10 text acc = n := by
  induction text generalizing acc with
  | nil => simp [digitsFrom?]
  | cons c text ih =>
    simp only [digitsFrom?, Option.bind_eq_bind, Option.bind_eq_some_iff, digit?_eq_some_iff, ih,
      List.forall_mem_cons, Nat.ofDigitChars_cons]
    constructor
    · rintro ⟨_, ⟨hc, rfl⟩, htext, hvalue⟩
      exact ⟨⟨hc, htext⟩, hvalue⟩
    · rintro ⟨⟨hc, htext⟩, hvalue⟩
      exact ⟨_, ⟨hc, rfl⟩, htext, hvalue⟩

theorem digits?_eq_some_iff {text : List Char} {n : Nat} :
    digits? text = some n ↔ text ≠ [] ∧ (∀ c ∈ text, c.isDigit = true) ∧
      Nat.ofDigitChars 10 text 0 = n := by
  cases text with
  | nil => simp [digits?]
  | cons c text => simp only [digits?, digitsFrom?_eq_some_iff, ne_eq, reduceCtorEq,
      not_false_eq_true, true_and]

/-- **Just the numerals are read, with their values.** -/
theorem numeral?_eq_some_iff {text : List Char} {n : Nat} :
    numeral? text = some n ↔ IsNumeral text n := by
  constructor
  · intro h
    unfold numeral? at h
    split at h
    · exact ⟨_, .inr rfl, digits?_eq_some_iff.mp h⟩
    · exact ⟨_, .inl rfl, digits?_eq_some_iff.mp h⟩
  · rintro ⟨digits, rfl | rfl, hdigits⟩
    · unfold numeral?
      split
      · exact absurd (hdigits.2.1 '+' List.mem_cons_self) (by decide)
      · exact digits?_eq_some_iff.mpr hdigits
    · exact digits?_eq_some_iff.mpr hdigits

theorem word?_eq_some_iff {text : List Char} {n : UInt32} :
    word? text = some n ↔ IsNumeral text n.toNat := by
  simp only [word?, Option.bind_eq_bind, Option.bind_eq_some_iff, numeral?_eq_some_iff,
    Option.ite_none_right_eq_some, Option.some.injEq]
  constructor
  · rintro ⟨m, hnumeral, hword, rfl⟩
    rwa [UInt32.toNat_ofNat_of_lt' hword]
  · intro h
    exact ⟨n.toNat, h, n.toNat_lt, UInt32.ofNat_toNat⟩

theorem isDigit_of_mem_toDigits {n : Nat} {c : Char} (h : c ∈ Nat.toDigits 10 n) :
    c.isDigit = true := Nat.isDigit_of_mem_toDigits (by decide) (by decide) h

theorem isNumeral_toDigits (n : Nat) : IsNumeral (Nat.toDigits 10 n) n :=
  ⟨_, .inl rfl, Nat.toDigits_ne_nil, fun _ ↦ isDigit_of_mem_toDigits, Nat.ofDigitChars_ten_toDigits⟩

theorem isBlank_of_isDigit {c : Char} (h : c.isDigit = true) : isBlank c = false := by
  have hall : ∀ n < 58, 48 ≤ n → isBlank (Char.ofNat n) = false := by decide
  rw [Char.isDigit, Bool.and_eq_true, decide_eq_true_eq, decide_eq_true_eq] at h
  have hc := hall c.toNat (Nat.lt_succ_of_le h.2) h.1
  rwa [Char.ofNat_toNat] at hc

/-- There is nothing to trim of a number in writing. -/
theorem isNumeral_trim_toDigits (n : Nat) : IsNumeral (trim (Nat.toDigits 10 n)) n := by
  rw [trim_eq_self fun c hc ↦ isBlank_of_isDigit (isDigit_of_mem_toDigits hc)]
  exact isNumeral_toDigits n

/-- The characters of a numeral are digits and the plus sign. -/
theorem IsNumeral.mem {text : List Char} {n : Nat} (h : IsNumeral text n) {c : Char}
    (hc : c ∈ text) : c.isDigit = true ∨ c = '+' := by
  obtain ⟨digits, rfl | rfl, -, hdigits, -⟩ := h
  · exact .inl (hdigits c hc)
  · exact (List.mem_cons.mp hc).symm.imp_left (hdigits c)

end Text

namespace Script

open Text

/-! ## Sizes -/

theorem isCross_iff {c : Char} : isCross c = true ↔ c = 'x' ∨ c = 'X' := by simp [isCross]

/-- **What is read as a size**: two numerals of words, with a cross between them and white space
around them. -/
theorem size?_eq_some_iff {text : List Char} {s : Size} :
    size? text = some s ↔ ∃ width cross height, text = width ++ cross :: height ∧
      (cross = 'x' ∨ cross = 'X') ∧ (∀ c ∈ width, c ≠ 'x' ∧ c ≠ 'X') ∧
      IsNumeral (trim width) s.width.toNat ∧ IsNumeral (trim height) s.height.toNat := by
  have hfree : ∀ c, isCross c = false ↔ c ≠ 'x' ∧ c ≠ 'X' := by
    intro c
    rw [← Bool.not_eq_true, isCross_iff, not_or]
  simp only [size?, Option.bind_eq_bind, Option.bind_eq_some_iff, Prod.exists, cut?_eq_some_iff,
    isCross_iff, hfree, word?_eq_some_iff, Option.pure_def, Option.some.injEq]
  constructor
  · rintro ⟨width, height, ⟨⟨cross, hcross, rfl⟩, hwidth⟩, w, hw, h, hh, rfl⟩
    exact ⟨width, cross, height, rfl, hcross, hwidth, hw, hh⟩
  · rintro ⟨width, cross, height, rfl, hcross, hwidth, hw, hh⟩
    exact ⟨width, height, ⟨⟨cross, hcross, rfl⟩, hwidth⟩, _, hw, _, hh, rfl⟩

/-- The characters of a size in writing are digits and the cross. -/
theorem isDigit_of_mem_text {s : Size} {c : Char} (h : c ∈ s.text) :
    c.isDigit = true ∨ c = 'x' := by
  rw [Size.text, List.mem_append, List.mem_cons] at h
  rcases h with h | h | h
  · exact .inl (isDigit_of_mem_toDigits h)
  · exact .inr h
  · exact .inl (isDigit_of_mem_toDigits h)

/-- **A size in writing is read back.** -/
theorem size?_text (s : Size) : size? s.text = some s := by
  refine size?_eq_some_iff.mpr ⟨_, 'x', _, rfl, .inl rfl, fun c hc ↦ ⟨?_, ?_⟩,
    isNumeral_trim_toDigits _, isNumeral_trim_toDigits _⟩
  · rintro rfl
    exact absurd (isDigit_of_mem_toDigits hc) (by decide)
  · rintro rfl
    exact absurd (isDigit_of_mem_toDigits hc) (by decide)

end Script

end MolePuzzle
