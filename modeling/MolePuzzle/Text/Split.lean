/-!
# Cutting lists

Two ways of cutting a list at separators, for the notations of this library: `split` cuts at every
separator, `cut?` at the first one only.  Main statements: `split_append_cons`, a piece ends at the
first separator, `split_eq_iff`, the pieces are what gives the list again when it is joined, and
`cut?_eq_some_iff`, which says what is before a cut and what is after it.
-/

set_option autoImplicit false

namespace MolePuzzle.Text

variable {α : Type}

/-! ## At every separator -/

/-- The pieces between the separators.  There is always one more piece than there are
separators. -/
def split [DecidableEq α] (sep : α) : List α → List (List α)
  | [] => [[]]
  | a :: rest => if a = sep then [] :: split sep rest else (split sep rest).modifyHead (a :: ·)

theorem split_ne_nil [DecidableEq α] (sep : α) (l : List α) : split sep l ≠ [] := by
  induction l with
  | nil => simp [split]
  | cons a l ih =>
    rw [split]
    split
    · simp
    · simpa using ih

theorem split_of_not_mem [DecidableEq α] {sep : α} {l : List α} (h : sep ∉ l) :
    split sep l = [l] := by
  induction l with
  | nil => rfl
  | cons a l ih =>
    rw [List.mem_cons, not_or] at h
    rw [split, if_neg (Ne.symm h.1), ih h.2]
    rfl

theorem split_append_cons [DecidableEq α] {sep : α} {l : List α} (h : sep ∉ l) (rest : List α) :
    split sep (l ++ sep :: rest) = l :: split sep rest := by
  induction l with
  | nil => simp [split]
  | cons a l ih =>
    rw [List.mem_cons, not_or] at h
    rw [List.cons_append, split, if_neg (Ne.symm h.1), ih h.2]
    rfl

theorem split_eq_splitOn [DecidableEq α] (sep : α) (l : List α) : split sep l = l.splitOn sep := by
  induction l with
  | nil => rfl
  | cons a l ih => simp only [split, List.splitOn_cons_eq_if_modifyHead, ih, beq_iff_eq]

/-- What stands before a separator and what stands after it are cut on their own. -/
theorem split_append_sep [DecidableEq α] (sep : α) (l rest : List α) :
    split sep (l ++ sep :: rest) = split sep l ++ split sep rest := by
  rw [split_eq_splitOn, split_eq_splitOn, split_eq_splitOn, List.splitOn_append_cons_self]

theorem not_mem_of_mem_split [DecidableEq α] {sep : α} {l piece : List α}
    (h : piece ∈ split sep l) : sep ∉ piece := by
  induction l generalizing piece with
  | nil =>
    rw [split, List.mem_singleton] at h
    rw [h]
    exact List.not_mem_nil
  | cons a l ih =>
    rw [split] at h
    split at h <;> rename_i ha
    · rcases List.mem_cons.mp h with rfl | h
      · exact List.not_mem_nil
      · exact ih h
    · cases hpieces : split sep l with
      | nil => exact absurd hpieces (split_ne_nil sep l)
      | cons first rest =>
        rw [hpieces, List.modifyHead_cons] at h
        rcases List.mem_cons.mp h with rfl | h
        · rw [List.mem_cons, not_or]
          exact ⟨Ne.symm ha, ih (hpieces ▸ List.mem_cons_self)⟩
        · exact ih (hpieces ▸ List.mem_cons_of_mem _ h)

/-- **Pieces come from cutting a list exactly when joining them gives the list**, and none of them
could be cut. -/
theorem split_eq_iff [DecidableEq α] {sep : α} {l : List α} {pieces : List (List α)} :
    split sep l = pieces ↔
      pieces ≠ [] ∧ (∀ piece ∈ pieces, sep ∉ piece) ∧ [sep].intercalate pieces = l := by
  constructor
  · rintro rfl
    refine ⟨split_ne_nil sep l, fun _ ↦ not_mem_of_mem_split, ?_⟩
    rw [split_eq_splitOn, List.intercalate_splitOn]
  · rintro ⟨hne, hpieces, rfl⟩
    rw [split_eq_splitOn, List.splitOn_intercalate sep hpieces hne]

/-! ## At the first separator -/

/-- What stands before and after the first element that is a separator, if there is one. -/
def cut? (isSep : α → Bool) : List α → Option (List α × List α)
  | [] => none
  | a :: rest =>
    if isSep a then some ([], rest) else (cut? isSep rest).map fun (l, r) ↦ (a :: l, r)

theorem cut?_eq_some_iff {isSep : α → Bool} {l before after : List α} :
    cut? isSep l = some (before, after) ↔
      (∃ sep, isSep sep = true ∧ l = before ++ sep :: after) ∧ ∀ a ∈ before, isSep a = false := by
  induction l generalizing before with
  | nil => simp [cut?]
  | cons a l ih =>
    rw [cut?]
    split <;> rename_i ha
    · simp only [Option.some.injEq, Prod.mk.injEq]
      constructor
      · rintro ⟨rfl, rfl⟩
        exact ⟨⟨a, ha, rfl⟩, by simp⟩
      · rintro ⟨⟨sep, _, h⟩, hbefore⟩
        cases before with
        | nil => simp_all
        | cons b before => simp_all
    · simp only [Option.map_eq_some_iff, Prod.exists, Prod.mk.injEq]
      constructor
      · rintro ⟨x, y, hxy, rfl, rfl⟩
        obtain ⟨⟨sep, hsep, rfl⟩, hx⟩ := ih.mp hxy
        refine ⟨⟨sep, hsep, rfl⟩, ?_⟩
        intro c hc
        rcases List.mem_cons.mp hc with rfl | hc
        · simpa using ha
        · exact hx c hc
      · rintro ⟨⟨sep, hsep, h⟩, hbefore⟩
        cases before with
        | nil => simp_all
        | cons b before =>
          rw [List.cons_append, List.cons.injEq] at h
          obtain ⟨rfl, rfl⟩ := h
          exact ⟨before, after, ih.mpr ⟨⟨sep, hsep, rfl⟩,
            fun c hc ↦ hbefore c (List.mem_cons_of_mem _ hc)⟩, rfl, rfl⟩

/-- What stands before and after the first of some element. -/
theorem cut?_beq_eq_some_iff [BEq α] [LawfulBEq α] {sep : α} {l before after : List α} :
    cut? (· == sep) l = some (before, after) ↔ l = before ++ sep :: after ∧ sep ∉ before := by
  rw [cut?_eq_some_iff]
  simp only [beq_iff_eq, exists_eq_left, beq_eq_false_iff_ne, ne_eq]
  exact and_congr_right fun _ ↦ ⟨fun h hsep ↦ h _ hsep rfl, fun h a ha heq ↦ h (heq ▸ ha)⟩

end MolePuzzle.Text
