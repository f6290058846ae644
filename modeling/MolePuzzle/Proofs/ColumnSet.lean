import Mathlib.Data.Finset.Card
import MolePuzzle.Grid.CellSet

/-!
# Sets of cells, column by column

A set of cells can be kept as a table that has, for each column, the rows of its cells in that
column.  Whether the set is empty is then asked of the table alone, and two such sets are equal if
their tables are.  Neither would be right if a column could stay in the table after it has lost its
last cell: then there would be no members, and still an entry.

No change leaves such a column (`ColumnSet.Tidy.change`).  So a table and a `CellSet` that have gone
through the same changes cannot be told apart by asking, and both answer as the finite set of their
members does (`CellSet.after_finite`).
-/

set_option autoImplicit false

namespace MolePuzzle

/-! ## Changes and answers -/

namespace CellSet

/-- What can be done to a set of cells. -/
inductive Change where
  | add (c : Coord)
  | remove (c : Coord)
  deriving DecidableEq, Repr

/-- Makes a change. -/
def change (s : CellSet) : Change → CellSet
  | .add c => (add s c).2
  | .remove c => (remove s c).2

/-- What can be learned of a set of cells by asking. -/
@[ext]
structure Answers where
  /-- Is the cell in the set? -/
  has : Coord → Bool
  /-- Is it reported as new when it is put in? -/
  gains : Coord → Bool
  /-- Is it reported as lost when it is taken out? -/
  loses : Coord → Bool
  /-- How many cells are there? -/
  size : Nat
  /-- Are there none? -/
  isEmpty : Bool

/-- The answers of a set of cells. -/
def answers (s : CellSet) : Answers where
  has := s.contains
  gains c := (add s c).1
  loses c := (remove s c).1
  size := s.size
  isEmpty := s.isEmpty

namespace Change

/-- The members after a change. -/
def members (before : Finset Coord) : Change → Finset Coord
  | add c => insert c before
  | remove c => before.erase c

/-- **A set that changes as its members should has the right members** after all changes.  This
holds of any kind of set. -/
theorem mem_foldl {σ : Type} [Membership Coord σ] {step : σ → Change → σ}
    (hadd : ∀ {s c e}, e ∈ step s (add c) ↔ e = c ∨ e ∈ s)
    (hremove : ∀ {s c e}, e ∈ step s (remove c) ↔ e ≠ c ∧ e ∈ s)
    (changes : List Change) {s : σ} {before : Finset Coord} (h : ∀ e, e ∈ s ↔ e ∈ before) :
    ∀ e, e ∈ changes.foldl step s ↔ e ∈ changes.foldl members before := by
  induction changes generalizing s before with
  | nil => exact h
  | cons k rest ih =>
    refine ih fun e ↦ ?_
    cases k with
    | add c => rw [hadd, h, members, Finset.mem_insert]
    | remove c => rw [hremove, h, members, Finset.mem_erase]

/-- Cells that are put in one after another become members. -/
theorem foldl_members_map_add (cells : List Coord) (before : Finset Coord) :
    (cells.map add).foldl members before = before ∪ cells.toFinset := by
  induction cells generalizing before with
  | nil => simp
  | cons c rest ih =>
    rw [List.map_cons, List.foldl_cons, ih, members, List.toFinset_cons, Finset.insert_union,
      Finset.union_insert]

/-- The members that changes lead to from the listed cells. -/
def after (cells : List Coord) (changes : List Change) : Finset Coord :=
  changes.foldl members cells.toFinset

end Change

/-- The set that changes lead to from the listed cells. -/
def after (cells : List Coord) (changes : List Change) : CellSet :=
  changes.foldl change (ofList cells)

theorem mem_after (cells : List Coord) (changes : List Change) :
    ∀ c, c ∈ after cells changes ↔ c ∈ Change.after cells changes :=
  Change.mem_foldl mem_add mem_remove changes fun c ↦ by rw [mem_ofList, List.mem_toFinset]

namespace Answers

/-- The answers of a finite set. -/
def of (members : Finset Coord) : Answers where
  has c := decide (c ∈ members)
  gains c := decide (c ∉ members)
  loses c := decide (c ∈ members)
  size := members.card
  isEmpty := decide (members = ∅)

/-- Answers are those of a finite set if they fit together, and the cells that are counted are its
members. -/
theorem eq_of {a : Answers} {members : Finset Coord} {cells : List Coord} (hnodup : cells.Nodup)
    (hcells : ∀ c, c ∈ cells ↔ c ∈ members) (hhas : ∀ c, a.has c = true ↔ c ∈ members)
    (hgains : ∀ c, a.gains c = !a.has c) (hloses : ∀ c, a.loses c = a.has c)
    (hsize : a.size = cells.length) (hempty : a.isEmpty = true ↔ cells = []) : a = of members := by
  have hmembers : members = cells.toFinset := by
    ext c
    rw [List.mem_toFinset, hcells]
  have hhas' : ∀ c, a.has c = decide (c ∈ members) := fun c ↦ by
    rw [Bool.eq_iff_iff, hhas, decide_eq_true_iff]
  ext c
  · rw [hhas', of]
  · rw [hgains, hhas', ← decide_not, of]
  · rw [hloses, hhas', of]
  · rw [hsize, of, hmembers, List.toFinset_card_of_nodup hnodup]
  · rw [Bool.eq_iff_iff, hempty, of, decide_eq_true_iff, hmembers, List.toFinset_eq_empty_iff]

end Answers

/-- A set of cells with the members of a finite set answers like it. -/
theorem answers_eq_of {s : CellSet} {members : Finset Coord} (h : ∀ c, c ∈ s ↔ c ∈ members) :
    answers s = .of members := by
  refine Answers.eq_of (nodup_toList s) (fun c ↦ ?_) (fun c ↦ ?_) (fun c ↦ rfl) (fun c ↦ rfl)
    Std.ExtTreeSet.length_toList.symm ?_
  · rw [Std.ExtTreeSet.mem_toList, h]
  · rw [← h]
    exact Std.ExtTreeSet.contains_iff_mem
  · rw [Std.ExtTreeSet.toList_eq_nil_iff]
    exact Std.ExtTreeSet.isEmpty_iff

end CellSet

/-! ## Tables of columns -/

/-- A set of cells as a table: for each column, the rows of its cells in that column. -/
structure ColumnSet where
  /-- The table. -/
  columns : Std.ExtTreeMap UInt32 (Std.ExtTreeSet UInt32) := ∅
  deriving DecidableEq

namespace ColumnSet

open CellSet (Change Answers)

variable {s t : ColumnSet} {c e : Coord} {column : UInt32}

/-- Is the cell in the set? -/
def has (s : ColumnSet) (c : Coord) : Bool := s.columns[c.column]?.any (·.contains c.row)

/-- Puts a cell in, and tells whether it was absent. -/
def add (s : ColumnSet) (c : Coord) : Bool × ColumnSet :=
  let rows := s.columns[c.column]?.getD ∅
  (!rows.contains c.row, ⟨s.columns.insert c.column (rows.insert c.row)⟩)

/-- Takes a cell out, and tells whether it was present.  A column that has no cells after that is
taken out of the table. -/
def remove (s : ColumnSet) (c : Coord) : Bool × ColumnSet :=
  match s.columns[c.column]? with
  | none => (false, s)
  | some rows =>
    let rest := rows.erase c.row
    (rows.contains c.row,
      ⟨if rest.isEmpty then s.columns.erase c.column else s.columns.insert c.column rest⟩)

/-- Number of cells. -/
def size (s : ColumnSet) : Nat := s.columns.foldl (fun n _ rows ↦ n + rows.size) 0

/-- Is the table empty? -/
def isEmpty (s : ColumnSet) : Bool := s.columns.isEmpty

/-- The set of the listed cells, put in one after another. -/
def ofList (cells : List Coord) : ColumnSet := cells.foldl (fun s c ↦ (s.add c).2) {}

/-- Makes a change. -/
def change (s : ColumnSet) : Change → ColumnSet
  | .add c => (s.add c).2
  | .remove c => (s.remove c).2

/-- What can be learned of the set by asking. -/
def answers (s : ColumnSet) : Answers where
  has := s.has
  gains c := (s.add c).1
  loses c := (s.remove c).1
  size := s.size
  isEmpty := s.isEmpty

/-! ### The rows of a column -/

/-- The rows of the cells in a column, none of them if the table has no entry for it. -/
def rows (s : ColumnSet) (column : UInt32) : Std.ExtTreeSet UInt32 := s.columns[column]?.getD ∅

instance : Membership Coord ColumnSet := ⟨fun s c ↦ c.row ∈ s.rows c.column⟩

theorem mem_iff : c ∈ s ↔ c.row ∈ s.rows c.column := Iff.rfl

theorem has_iff : s.has c = true ↔ c ∈ s := by
  rw [mem_iff, rows, has]
  cases s.columns[c.column]? <;> simp

/-- The entry of a column with the given rows. -/
def kept? (rows : Std.ExtTreeSet UInt32) : Option (Std.ExtTreeSet UInt32) :=
  if rows.isEmpty then none else some rows

theorem getD_kept? (rows : Std.ExtTreeSet UInt32) : (kept? rows).getD ∅ = rows := by
  unfold kept?
  split <;> rename_i h
  · exact (Std.ExtTreeSet.isEmpty_iff.mp h).symm
  · rfl

theorem kept?_ne (rows : Std.ExtTreeSet UInt32) : kept? rows ≠ some ∅ := by
  unfold kept?
  split <;> rename_i h
  · nofun
  · exact fun hrows ↦ h (by rw [Option.some_inj.mp hrows, Std.ExtTreeSet.isEmpty_empty])

/-- **Putting a cell in** adds its row to the entry of its column. -/
theorem columns_add : (s.add c).2.columns[column]? =
    if c.column = column then some ((s.rows column).insert c.row) else s.columns[column]? := by
  simp only [add, Std.ExtTreeMap.getElem?_insert, Std.compare_eq_iff_eq]
  by_cases h : c.column = column
  · rw [if_pos h, if_pos h, h, rows]
  · rw [if_neg h, if_neg h]

/-- **Taking a cell out** takes its row out of the entry of its column, and the entry out of the
table if that was the last row. -/
theorem columns_remove : (s.remove c).2.columns[column]? =
    if c.column = column then kept? ((s.rows column).erase c.row) else s.columns[column]? := by
  unfold remove
  split <;> rename_i hcolumn
  · by_cases h : c.column = column
    · subst h
      rw [if_pos rfl, rows, hcolumn, Option.getD_none, Std.ExtTreeSet.erase_empty, kept?,
        if_pos Std.ExtTreeSet.isEmpty_empty]
    · rw [if_neg h]
  · rename_i present
    by_cases h : c.column = column
    · subst h
      rw [if_pos rfl, rows, hcolumn, Option.getD_some, kept?]
      dsimp only
      split
      · exact Std.ExtTreeMap.getElem?_erase_self
      · exact Std.ExtTreeMap.getElem?_insert_self
    · rw [if_neg h]
      dsimp only
      split
      · rw [Std.ExtTreeMap.getElem?_erase, if_neg (by rwa [Std.compare_eq_iff_eq])]
      · rw [Std.ExtTreeMap.getElem?_insert, if_neg (by rwa [Std.compare_eq_iff_eq])]

/-! ### The members after a change -/

theorem mem_add : e ∈ (s.add c).2 ↔ e = c ∨ e ∈ s := by
  obtain ⟨column, row⟩ := c
  obtain ⟨column', row'⟩ := e
  rw [mem_iff, rows, columns_add, mem_iff, Coord.mk.injEq]
  by_cases h : column = column'
  · rw [if_pos h, Option.getD_some, Std.ExtTreeSet.mem_insert, Std.compare_eq_iff_eq]
    simp [h, eq_comm]
  · rw [if_neg h, ← rows]
    simp [Ne.symm h]

theorem mem_remove : e ∈ (s.remove c).2 ↔ e ≠ c ∧ e ∈ s := by
  obtain ⟨column, row⟩ := c
  obtain ⟨column', row'⟩ := e
  rw [mem_iff, rows, columns_remove, mem_iff, Ne, Coord.mk.injEq]
  by_cases h : column = column'
  · rw [if_pos h, getD_kept?, Std.ExtTreeSet.mem_erase, Ne, Std.compare_eq_iff_eq]
    simp [h, eq_comm]
  · rw [if_neg h, ← rows]
    simp [Ne.symm h]

/-- A cell is reported as new exactly if it was absent. -/
theorem fst_add (s : ColumnSet) (c : Coord) : (s.add c).1 = !s.has c := by
  unfold add has
  cases s.columns[c.column]? <;> simp

/-- A cell is reported as lost exactly if it was present. -/
theorem fst_remove (s : ColumnSet) (c : Coord) : (s.remove c).1 = s.has c := by
  unfold remove has
  cases s.columns[c.column]? <;> rfl

theorem ofList_eq (cells : List Coord) :
    ofList cells = (cells.map Change.add).foldl ColumnSet.change {} := by
  rw [List.foldl_map]
  rfl

/-! ### No column without cells -/

/-- No column in the table is without cells. -/
def Tidy (s : ColumnSet) : Prop := ∀ column : UInt32, s.columns[column]? ≠ some ∅

theorem tidy_empty : Tidy {} := fun column ↦ by simp

/-- **A change leaves no column without cells** in the table. -/
theorem Tidy.change (h : s.Tidy) (k : Change) : (s.change k).Tidy := by
  intro column
  cases k with
  | add c =>
    rw [ColumnSet.change, columns_add]
    split
    · simp
    · exact h column
  | remove c =>
    rw [ColumnSet.change, columns_remove]
    split
    · exact kept?_ne _
    · exact h column

theorem Tidy.foldl_change (h : s.Tidy) (changes : List Change) :
    (changes.foldl ColumnSet.change s).Tidy := by
  induction changes generalizing s with
  | nil => exact h
  | cons k rest ih => exact ih (h.change k)

/-- A column without cells has no entry. -/
theorem Tidy.columns_eq (h : s.Tidy) (column : UInt32) :
    s.columns[column]? = kept? (s.rows column) := by
  unfold rows kept?
  cases hcolumn : s.columns[column]? with
  | none => simp
  | some present =>
    have hpresent : present ≠ ∅ := fun hempty ↦ h column (hempty ▸ hcolumn)
    rw [Option.getD_some, if_neg (by rwa [Std.ExtTreeSet.isEmpty_iff])]

/-- **The members tell the table.** -/
theorem Tidy.eq_of_mem_iff (hs : s.Tidy) (ht : t.Tidy) (h : ∀ c, c ∈ s ↔ c ∈ t) : s = t := by
  have hrows : ∀ column, s.rows column = t.rows column := fun column ↦
    Std.ExtTreeSet.ext_mem fun row ↦ h ⟨column, row⟩
  have hcolumns : s.columns = t.columns := Std.ExtTreeMap.ext_getElem? fun column ↦ by
    rw [hs.columns_eq, ht.columns_eq, hrows]
  cases s
  cases t
  exact congrArg ColumnSet.mk hcolumns

/-! ### Listing the cells -/

/-- The cells, column by column. -/
def toList (s : ColumnSet) : List Coord :=
  s.columns.toList.flatMap fun (column, rows) ↦ rows.toList.map (⟨column, ·⟩)

theorem mem_toList : c ∈ s.toList ↔ c ∈ s := by
  obtain ⟨column, row⟩ := c
  simp only [toList, List.mem_flatMap, List.mem_map, Prod.exists,
    Std.ExtTreeMap.mem_toList_iff_getElem?_eq_some, Std.ExtTreeSet.mem_toList, Coord.mk.injEq,
    mem_iff, rows]
  constructor
  · rintro ⟨_, present, hcolumn, _, hrow, rfl, rfl⟩
    rwa [hcolumn]
  · intro hrow
    cases hcolumn : s.columns[column]? with
    | none => simp [hcolumn] at hrow
    | some present => exact ⟨column, present, hcolumn, row, by simpa [hcolumn] using hrow, rfl, rfl⟩

/-- No cell is listed twice: not in one column, whose rows are a set, and not in two. -/
theorem nodup_toList (s : ColumnSet) : s.toList.Nodup := by
  rw [toList, List.nodup_flatMap]
  constructor
  · rintro ⟨column, present⟩ -
    exact (MolePuzzle.nodup_toList present).map fun row row' h ↦ congrArg Coord.row h
  · refine s.columns.distinct_keys_toList.imp ?_
    rintro ⟨column, present⟩ ⟨column', present'⟩ hne c hc hc'
    obtain ⟨_, -, rfl⟩ := List.mem_map.mp hc
    obtain ⟨_, -, h⟩ := List.mem_map.mp hc'
    exact hne (Std.compare_eq_iff_eq.mpr (congrArg Coord.column h).symm)

theorem length_toList (s : ColumnSet) : s.toList.length = s.size := by
  rw [size, Std.ExtTreeMap.foldl_eq_foldl_toList, toList, List.length_flatMap, List.sum_eq_foldl,
    List.foldl_map]
  simp only [List.length_map, Std.ExtTreeSet.length_toList]

/-- Without a column that has no cells, the table is empty exactly if there are no cells. -/
theorem Tidy.isEmpty_iff (h : s.Tidy) : s.isEmpty = true ↔ s.toList = [] := by
  rw [isEmpty, Std.ExtTreeMap.isEmpty_iff]
  constructor
  · intro hcolumns
    rw [toList, hcolumns]
    rfl
  · intro hcells
    have hrows : ∀ column, s.rows column = ∅ := fun column ↦
      Std.ExtTreeSet.eq_empty_iff_forall_not_mem.mpr fun row hrow ↦ by
        have hmem : (⟨column, row⟩ : Coord) ∈ s.toList := mem_toList.mpr hrow
        rw [hcells] at hmem
        exact List.not_mem_nil hmem
    refine Std.ExtTreeMap.ext_getElem? fun column ↦ ?_
    rw [h.columns_eq, hrows, Std.ExtTreeMap.getElem?_empty]
    exact if_pos Std.ExtTreeSet.isEmpty_empty

/-- With such a column there is an entry, and still there are no cells. -/
example : let s : ColumnSet := ⟨.ofList [((1 : UInt32), ∅)]⟩
    s.isEmpty = false ∧ s.size = 0 := by decide

/-! ### The finite set of the members -/

/-- A table that has the members of a finite set, and no column without cells, answers like it. -/
theorem Tidy.answers_eq_of (h : s.Tidy) {members : Finset Coord} (hs : ∀ c, c ∈ s ↔ c ∈ members) :
    s.answers = .of members := by
  refine Answers.eq_of s.nodup_toList (fun c ↦ ?_) (fun c ↦ ?_) s.fst_add s.fst_remove
    s.length_toList.symm h.isEmpty_iff
  · rw [mem_toList, hs]
  · rw [← hs]
    exact has_iff

/-- The set that changes lead to from the listed cells. -/
def after (cells : List Coord) (changes : List Change) : ColumnSet :=
  changes.foldl change (ofList cells)

theorem mem_after (cells : List Coord) (changes : List Change) :
    ∀ c, c ∈ after cells changes ↔ c ∈ Change.after cells changes := by
  refine Change.mem_foldl mem_add mem_remove changes ?_
  rw [ofList_eq, ← Finset.empty_union cells.toFinset, ← Change.foldl_members_map_add]
  exact Change.mem_foldl mem_add mem_remove _ fun c ↦ by simp [mem_iff, rows]

theorem tidy_after (cells : List Coord) (changes : List Change) : (after cells changes).Tidy := by
  rw [after, ofList_eq]
  exact (tidy_empty.foldl_change _).foldl_change _

end ColumnSet

/-- **A set of cells is the finite set of its members.**  Let changes be made of a set of listed
cells, and of the table of the same cells.

* Both answer as the finite set does that is changed in the same way: what is a member, whether a
  cell is new when it is put in and was there when it is taken out, how many cells there are, and
  whether there are none.
* No column in the table is without cells.
* Whatever other cells and changes are taken, the sets that are reached are equal exactly if they
  have the same members, and the tables are equal exactly if they have. -/
theorem CellSet.after_finite (cells cells' : List Coord) (changes changes' : List Change) :
    let members := Change.after cells changes
    let members' := Change.after cells' changes'
    answers (after cells changes) = .of members ∧
      (ColumnSet.after cells changes).answers = .of members ∧
      (∀ column : UInt32, (ColumnSet.after cells changes).columns[column]? ≠ some ∅) ∧
      (after cells changes = after cells' changes' ↔ members = members') ∧
      (ColumnSet.after cells changes = ColumnSet.after cells' changes' ↔ members = members') := by
  intro members members'
  have hset : ∀ c, c ∈ after cells changes ↔ c ∈ members := mem_after cells changes
  have hset' : ∀ c, c ∈ after cells' changes' ↔ c ∈ members' := mem_after cells' changes'
  have htable : ∀ c, c ∈ ColumnSet.after cells changes ↔ c ∈ members :=
    ColumnSet.mem_after cells changes
  have htable' : ∀ c, c ∈ ColumnSet.after cells' changes' ↔ c ∈ members' :=
    ColumnSet.mem_after cells' changes'
  have htidy := ColumnSet.tidy_after cells changes
  have htidy' := ColumnSet.tidy_after cells' changes'
  refine ⟨answers_eq_of hset, htidy.answers_eq_of htable, htidy, ⟨fun heq ↦ ?_, fun heq ↦ ?_⟩,
    fun heq ↦ ?_, fun heq ↦ ?_⟩
  · ext c
    rw [← hset, ← hset', heq]
  · refine Std.ExtTreeSet.ext_mem fun c ↦ ?_
    rw [hset, hset', heq]
  · ext c
    rw [← htable, ← htable', heq]
  · refine htidy.eq_of_mem_iff htidy' fun c ↦ ?_
    rw [htable, htable', heq]

end MolePuzzle
