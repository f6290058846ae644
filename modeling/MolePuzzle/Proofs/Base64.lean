import MolePuzzle.Proofs.Result
import MolePuzzle.Proofs.Utf8
import MolePuzzle.Text.Base64

/-!
# Base64 is canonical

Bytes have one writing in base64, and it is the only text that is read as them
(`Base64.decode_eq_ok_iff`).  Between the bytes and the text stand the values of six bits each.
`Base64.IsWhole` says which lists of values bytes are made into: those that leave no bits over.
`values` and `pack` are inverse to each other there, and reading a text comes down to finding the
values of its symbols, whatever the order in which faults are looked for.
-/

set_option autoImplicit false

namespace MolePuzzle

namespace Text

namespace Base64

/-! ## Values of six bits -/

/-- Values that bytes are made into: six bits each, and none are over behind the last byte. -/
structure IsWhole (values : List Nat) : Prop where
  lt : ∀ v ∈ values, v < 64
  /-- A single value is too little for a byte. -/
  length : values.length % 4 ≠ 1
  spareBits : spareBits values = 0

theorem spareBits_append_four (a b c d : Nat) (rest : List Nat) :
    spareBits (a :: b :: c :: d :: rest) = spareBits rest := by
  have hlength : (a :: b :: c :: d :: rest).length % 4 = rest.length % 4 := by
    simp only [List.length_cons]
    omega
  rw [spareBits, spareBits, hlength]
  cases rest with
  | nil => rfl
  | cons e rest => simp only [List.getLast?_cons_cons]

theorem isWhole_values (bytes : List UInt8) : IsWhole (values bytes) := by
  fun_induction values bytes with
  | case1 => exact ⟨by simp, by simp, rfl⟩
  | case2 a =>
    have ha := a.toNat_lt
    refine ⟨?_, by simp, ?_⟩
    · simp only [List.forall_mem_cons, List.not_mem_nil, false_implies, implies_true, and_true]
      omega
    · show a.toNat % 4 * 16 % 16 = 0
      omega
  | case3 a b =>
    have ha := a.toNat_lt
    have hb := b.toNat_lt
    refine ⟨?_, by simp, ?_⟩
    · simp only [List.forall_mem_cons, List.not_mem_nil, false_implies, implies_true, and_true]
      omega
    · show b.toNat % 16 * 4 % 4 = 0
      omega
  | case4 a b c rest ih =>
    have ha := a.toNat_lt
    have hb := b.toNat_lt
    have hc := c.toNat_lt
    refine ⟨?_, ?_, (spareBits_append_four _ _ _ _ _).trans ih.spareBits⟩
    · simp only [List.cons_append, List.nil_append, List.forall_mem_cons]
      exact ⟨by omega, by omega, by omega, by omega, ih.lt⟩
    · have hrest := ih.length
      simp only [List.length_append, List.length_cons, List.length_nil]
      omega

theorem pack_values (bytes : List UInt8) : pack (values bytes) = bytes := by
  have hbyte : ∀ (byte : UInt8) (n : Nat), n = byte.toNat → UInt8.ofNat n = byte := by
    rintro byte _ rfl
    exact UInt8.ofNat_toNat
  fun_induction values bytes with
  | case1 => rfl
  | case2 a => rw [pack, hbyte a _ (by omega)]
  | case3 a b =>
    have hb := b.toNat_lt
    rw [pack, hbyte a _ (by omega), hbyte b _ (by omega)]
  | case4 a b c rest ih =>
    have hb := b.toNat_lt
    have hc := c.toNat_lt
    rw [List.cons_append, List.cons_append, List.cons_append, List.cons_append, List.nil_append,
      pack, ih, hbyte a _ (by omega), hbyte b _ (by omega), hbyte c _ (by omega)]

theorem values_pack {vs : List Nat} (h : IsWhole vs) : values (pack vs) = vs := by
  have hbyte : ∀ n, n < 256 → (UInt8.ofNat n).toNat = n := fun n hn ↦ UInt8.toNat_ofNat_of_lt' hn
  fun_induction pack vs with
  | case1 a b c d rest ih =>
    obtain ⟨ha, hb, hc, hd, hrest⟩ : a < 64 ∧ b < 64 ∧ c < 64 ∧ d < 64 ∧ ∀ v ∈ rest, v < 64 := by
      simpa using h.lt
    have hlength : rest.length % 4 ≠ 1 := by
      have hall := h.length
      simp only [List.length_cons] at hall
      omega
    have hspare : spareBits rest = 0 := spareBits_append_four a b c d rest ▸ h.spareBits
    have hfirst : (a * 4 + b / 16) / 4 = a := by omega
    have hsecond : (a * 4 + b / 16) % 4 * 16 + (b % 16 * 16 + c / 4) / 16 = b := by omega
    have hthird : (b % 16 * 16 + c / 4) % 16 * 4 + (c % 4 * 64 + d) / 64 = c := by omega
    have hfourth : (c % 4 * 64 + d) % 64 = d := by omega
    rw [values, ih ⟨hrest, hlength, hspare⟩, hbyte _ (by omega), hbyte _ (by omega),
      hbyte _ (by omega), hfirst, hsecond, hthird, hfourth]
    rfl
  | case2 a b c =>
    obtain ⟨ha, hb, hc⟩ : a < 64 ∧ b < 64 ∧ c < 64 := by simpa using h.lt
    have hspare : c % 4 = 0 := h.spareBits
    have hfirst : (a * 4 + b / 16) / 4 = a := by omega
    have hsecond : (a * 4 + b / 16) % 4 * 16 + (b % 16 * 16 + c / 4) / 16 = b := by omega
    have hthird : (b % 16 * 16 + c / 4) % 16 * 4 = c := by omega
    rw [values, hbyte _ (by omega), hbyte _ (by omega), hfirst, hsecond, hthird]
  | case3 a b =>
    obtain ⟨ha, hb⟩ : a < 64 ∧ b < 64 := by simpa using h.lt
    have hspare : b % 16 = 0 := h.spareBits
    have hfirst : (a * 4 + b / 16) / 4 = a := by omega
    have hsecond : (a * 4 + b / 16) % 4 * 16 = b := by omega
    rw [values, hbyte _ (by omega), hfirst, hsecond]
  | case4 vs hfour hthree htwo =>
    match vs, h.length with
    | [], _ => rfl
    | [_], hlength => exact absurd rfl hlength
    | [a, b], _ => exact absurd rfl (htwo a b)
    | [a, b, c], _ => exact absurd rfl (hthree a b c)
    | a :: b :: c :: d :: rest, _ => exact absurd rfl (hfour a b c d rest)

/-- **Values are made of bytes exactly when they are whole**, and then of the bytes they pack. -/
theorem isWhole_and_pack_eq_iff {vs : List Nat} {bytes : List UInt8} :
    IsWhole vs ∧ pack vs = bytes ↔ vs = values bytes := by
  constructor
  · rintro ⟨hwhole, rfl⟩
    exact (values_pack hwhole).symm
  · rintro rfl
    exact ⟨isWhole_values bytes, pack_values bytes⟩

/-! ## Symbols -/

/-- A byte that has a value is the symbol of the value. -/
theorem encodeChar_symbol_of_value? {byte : UInt8} {v : Nat} (h : value? byte = some v) :
    v < 64 ∧ String.utf8EncodeChar (symbol v) = [byte] := by
  have hall : ∀ n < 256, ∀ v ∈ value? (UInt8.ofNat n),
      v < 64 ∧ String.utf8EncodeChar (symbol v) = [UInt8.ofNat n] := by decide +kernel
  have hbyte := hall byte.toNat byte.toNat_lt
  rw [UInt8.ofNat_toNat] at hbyte
  exact hbyte v h

/-- A symbol is one byte, which has the value of the symbol. -/
theorem exists_encodeChar_symbol {v : Nat} (h : v < 64) :
    ∃ byte, String.utf8EncodeChar (symbol v) = [byte] ∧ value? byte = some v := by
  have hall : ∀ v < 64, (String.utf8EncodeChar (symbol v)).map value? = [some v] := by
    decide +kernel
  obtain ⟨byte, hbyte, hvalue⟩ := List.map_eq_singleton_iff.mp (hall v h)
  exact ⟨byte, hbyte, hvalue⟩

/-- Bytes that have values are the symbols of their values. -/
theorem map_value?_eq_iff {text : List UInt8} {vs : List Nat} :
    text.map value? = vs.map some ↔
      (∀ v ∈ vs, v < 64) ∧ text = Utf8.encode (vs.map symbol) := by
  induction vs generalizing text with
  | nil => simp
  | cons v vs ih =>
    rw [List.map_cons, List.map_cons, Utf8.encode_cons, List.forall_mem_cons]
    constructor
    · intro h
      obtain ⟨byte, rest, rfl, hbyte, hrest⟩ := List.map_eq_cons_iff.mp h
      obtain ⟨hv, hsymbol⟩ := encodeChar_symbol_of_value? hbyte
      obtain ⟨hvs, rfl⟩ := ih.mp hrest
      exact ⟨⟨hv, hvs⟩, by rw [hsymbol]; rfl⟩
    · rintro ⟨⟨hv, hvs⟩, rfl⟩
      obtain ⟨byte, hsymbol, hbyte⟩ := exists_encodeChar_symbol hv
      rw [hsymbol, List.singleton_append, List.map_cons, hbyte, ih.mpr ⟨hvs, rfl⟩]

/-! ## Reading -/

/-- The result gives the values of the symbols of a text, if all its bytes are symbols. -/
def Reads (r : Except Fault (List Nat)) (text : List UInt8) : Prop :=
  ∀ vs, r = .ok vs ↔ text.map value? = vs.map some

theorem reads_nil : Reads (.ok []) [] := by
  intro vs
  cases vs <;> simp

theorem reads_of_ne_ok {r : Except Fault (List Nat)} {byte : UInt8} (hr : ∀ vs, r ≠ .ok vs)
    (hbyte : value? byte = none) (rest : List UInt8) : Reads r (byte :: rest) := by
  intro vs
  cases vs <;> simp [hr, hbyte]

theorem Reads.cons {r : Except Fault (List Nat)} {rest : List UInt8} (h : Reads r rest)
    {byte : UInt8} {v : Nat} (hbyte : value? byte = some v) :
    Reads (r.map (v :: ·)) (byte :: rest) := by
  intro vs
  rw [map_eq_ok_iff, List.map_cons, hbyte]
  cases vs with
  | nil => simp
  | cons w vs =>
    rw [List.map_cons, List.cons.injEq, Option.some.injEq, ← h vs]
    constructor
    · rintro ⟨_, hr, hcons⟩
      cases hcons
      exact ⟨rfl, hr⟩
    · rintro ⟨rfl, hr⟩
      exact ⟨vs, hr, rfl⟩

theorem reads_readSymbols (offset : Nat) (text : List UInt8) :
    Reads (readSymbols offset text) text := by
  induction text generalizing offset with
  | nil => exact reads_nil
  | cons byte rest ih =>
    rw [readSymbols]
    cases hbyte : value? byte with
    | none => exact reads_of_ne_ok (by simp) hbyte rest
    | some v => exact (ih (offset + 1)).cons hbyte

/-- After an equals sign nothing is read. -/
theorem readLastSymbols_ne_ok (first offset : Nat) (text : List UInt8) (vs : List Nat) :
    readLastSymbols (some first) offset text ≠ .ok vs := by
  induction text generalizing offset with
  | nil => nofun
  | cons byte rest ih =>
    rw [readLastSymbols, Option.getD_some]
    split
    · split
      · nofun
      · exact ih (offset + 1)
    · nofun

/-- Padding is never taken, so the last symbols are read like the others. -/
theorem reads_readLastSymbols (offset : Nat) (text : List UInt8) :
    Reads (readLastSymbols none offset text) text := by
  induction text generalizing offset with
  | nil => exact reads_nil
  | cons byte rest ih =>
    rw [readLastSymbols]
    split
    · rename_i hpad
      refine reads_of_ne_ok (fun vs ↦ ?_) (by rw [hpad]; decide) rest
      split
      · nofun
      · exact readLastSymbols_ne_ok _ _ _ vs
    · cases hbyte : value? byte with
      | none => exact reads_of_ne_ok (by simp) hbyte rest
      | some v => exact (ih (offset + 1)).cons hbyte

/-- A text can be read in two parts. -/
theorem Reads.append {r r' : Except Fault (List Nat)} {text : List UInt8} {n : Nat}
    (h : Reads r (text.take n)) (h' : Reads r' (text.drop n)) {vs : List Nat} :
    text.map value? = vs.map some ↔
      ∃ front back, r = .ok front ∧ r' = .ok back ∧ front ++ back = vs := by
  constructor
  · intro hvs
    refine ⟨vs.take n, vs.drop n, (h _).mpr ?_, (h' _).mpr ?_, List.take_append_drop n vs⟩
    · rw [List.map_take, hvs, List.map_take]
    · rw [List.map_drop, hvs, List.map_drop]
  · rintro ⟨front, back, hr, hr', rfl⟩
    rw [← List.take_append_drop n text, List.map_append, (h front).mp hr, (h' back).mp hr',
      List.map_append]

/-- A text is read exactly when its bytes are the symbols of whole values. -/
theorem decode_eq_ok_iff_exists_values {text bytes : List UInt8} :
    decode text = .ok bytes ↔ ∃ vs, text.map value? = vs.map some ∧ vs.length % 4 ≠ 1 ∧
      spareBits vs = 0 ∧ pack vs = bytes := by
  have hlength : ∀ vs : List Nat, text.map value? = vs.map some → vs.length = text.length := by
    intro vs hvs
    simpa using (congrArg List.length hvs).symm
  have hreads : ∀ vs, text.map value? = vs.map some ↔ ∃ front back,
      readSymbols 0 (text.take (lastBlock text.length)) = .ok front ∧
        readLastSymbols none (lastBlock text.length) (text.drop (lastBlock text.length)) =
          .ok back ∧ front ++ back = vs :=
    fun vs ↦ (reads_readSymbols _ _).append (reads_readLastSymbols _ _)
  rw [decode]
  dsimp only
  split <;> rename_i hcount
  · constructor
    · intro h
      split at h <;> cases h
    · rintro ⟨vs, hvs, hwhole, -⟩
      exact absurd (hlength vs hvs ▸ hcount) hwhole
  · simp only [bind_eq_ok_iff]
    constructor
    · rintro ⟨front, hfront, back, hback, h⟩
      have hvs := (hreads (front ++ back)).mpr ⟨front, back, hfront, hback, rfl⟩
      split at h
      · cases h
      · rename_i hspare
        exact ⟨_, hvs, hlength _ hvs ▸ hcount, not_not.mp hspare, Except.ok.inj h⟩
    · rintro ⟨vs, hvs, -, hspare, rfl⟩
      obtain ⟨front, back, hfront, hback, rfl⟩ := (hreads vs).mp hvs
      exact ⟨front, hfront, back, hback, by rw [if_neg (not_not.mpr hspare)]; rfl⟩

/-- **A text is read as bytes exactly when it is their writing.** -/
theorem decode_eq_ok_iff {text : List Char} {bytes : List UInt8} :
    decode (Utf8.encode text) = .ok bytes ↔ text = encode bytes := by
  rw [decode_eq_ok_iff_exists_values, encode]
  constructor
  · rintro ⟨vs, hvs, hlength, hspare, hpack⟩
    obtain ⟨hlt, htext⟩ := map_value?_eq_iff.mp hvs
    rw [Utf8.encode_inj.mp htext, isWhole_and_pack_eq_iff.mp ⟨⟨hlt, hlength, hspare⟩, hpack⟩]
  · rintro rfl
    obtain ⟨hwhole, hpack⟩ := isWhole_and_pack_eq_iff.mpr (Eq.refl (values bytes))
    exact ⟨_, map_value?_eq_iff.mpr ⟨hwhole.lt, rfl⟩, hwhole.length, hwhole.spareBits, hpack⟩

/-- Every symbol in a writing is a letter, a digit, a plus or a slash. -/
theorem exists_symbol_of_mem_encode {bytes : List UInt8} {c : Char} (h : c ∈ encode bytes) :
    ∃ v < 64, symbol v = c := by
  obtain ⟨v, hv, rfl⟩ := List.mem_map.mp h
  exact ⟨v, (isWhole_values bytes).lt v hv, rfl⟩

end Base64

end Text

end MolePuzzle
