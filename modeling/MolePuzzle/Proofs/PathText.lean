import Mathlib.Data.List.Infix
import MolePuzzle.Settings

/-!
# The text of a path

What can be told of a path from its text.  A path is cut into names at its slashes, and the names
that do not stay where they are make up the way that it leads (`Path.going`).

* Text put to the end of a path is put to its last name (`Path.exists_front`).  So the extension of
  level files, once it has been appended, is the extension of the path, except where there was no
  name at the end: the path was empty or ended in a slash, and the new name is all stem
  (`Path.extension?_withLevelExtension_iff`).
* The path of the directory in which a file stands starts like the path of the file, and leads the
  same way up to the last name (`Path.parent?_spec`).
-/

set_option autoImplicit false

namespace MolePuzzle

/-! ## Names -/

/-- The name can be that of a file: it is not empty, and stands for no directory. -/
def Name.NamesFile (n : Name) : Prop := n ≠ [] ∧ n ≠ Name.here ∧ n ≠ Name.above

theorem Name.NamesFile.staysHere {n : Name} (h : n.NamesFile) : n.staysHere = false := by
  obtain ⟨hempty, hhere, -⟩ := h
  simp [Name.staysHere, hempty, hhere]

/-- The first of some names, put together, are where all of them start. -/
theorem Text.prefix_intercalate {sep : List Char} {names names' : List Name}
    (h : names <+: names') : sep.intercalate names <+: sep.intercalate names' := by
  induction names generalizing names' with
  | nil => exact List.nil_prefix
  | cons n rest ih =>
    obtain ⟨more, rfl⟩ := h
    by_cases hrest : rest = []
    · subst hrest
      cases more with
      | nil => exact List.prefix_rfl
      | cons m more =>
        rw [List.singleton_append, List.intercalate_singleton, List.intercalate_cons_cons,
          List.append_assoc]
        exact List.prefix_append ..
    · rw [List.cons_append, List.intercalate_cons_of_ne_nil hrest,
        List.intercalate_cons_of_ne_nil (List.append_ne_nil_of_left_ne_nil hrest more),
        List.prefix_append_right_inj]
      exact ih (List.prefix_append ..)

namespace Path

variable {p q parent : Path} {front text : List Char} {early : List Name} {last : Name}

theorem intercalate_names (p : Path) : ['/'].intercalate p.names = p.chars :=
  (Text.split_eq_iff.mp rfl).2.2

/-! ## The end of a path -/

/-- There is no name at the end of the path: it is empty, or ends in a slash. -/
def EndsOpen (p : Path) : Prop := p.chars = [] ∨ p.chars.getLast? = some '/'

instance (p : Path) : Decidable p.EndsOpen := inferInstanceAs (Decidable (_ ∨ _))

theorem endsOpen_append (hfront : EndsOpen ⟨front⟩) (text : List Char) :
    EndsOpen ⟨front ++ text⟩ ↔ EndsOpen ⟨text⟩ := by
  cases text using List.reverseRecOn with
  | nil => exact iff_of_true (by rwa [List.append_nil]) (.inl rfl)
  | append_singleton init c => simp [EndsOpen, ← List.append_assoc]

theorem endsOpen_iff_of_not_mem (h : '/' ∉ text) : EndsOpen ⟨text⟩ ↔ text = [] :=
  ⟨fun hopen ↦ hopen.resolve_right fun hlast ↦ h (List.mem_of_getLast? hlast), .inl⟩

/-- What stands behind the last slash of a path can be replaced by another name. -/
theorem exists_front (p : Path) : ∃ front early last, EndsOpen ⟨front⟩ ∧ '/' ∉ last ∧
    p = ⟨front ++ last⟩ ∧ ∀ name, '/' ∉ name → names ⟨front ++ name⟩ = early ++ [name] := by
  by_cases hslash : '/' ∈ p.chars
  · obtain ⟨last, front, hchars, hlast⟩ := List.eq_append_cons_of_mem (List.mem_reverse.mpr hslash)
    rw [List.reverse_eq_iff] at hchars
    have hlast : '/' ∉ last.reverse := by rwa [List.mem_reverse]
    refine ⟨front.reverse ++ ['/'], Text.split '/' front.reverse, last.reverse,
      .inr List.getLast?_concat, hlast, congrArg Path.mk ?_, fun name hname ↦ ?_⟩
    · rw [hchars]
      simp
    · rw [names, List.append_assoc, List.singleton_append, Text.split_append_sep,
        Text.split_of_not_mem hname]
  · exact ⟨[], [], p.chars, .inl rfl, hslash, rfl, fun name hname ↦ Text.split_of_not_mem hname⟩

/-- Resolving a path does not change how it ends. -/
theorem endsOpen_resolve (s : Settings) (p : Path) : (s.resolve p).EndsOpen ↔ p.EndsOpen := by
  rw [Settings.resolve]
  cases s.levelsDir with
  | none => exact Iff.rfl
  | some dir =>
    dsimp only
    rw [join]
    split
    · exact Iff.rfl
    · split <;> rename_i hdir
      · rw [Bool.or_eq_true, List.isEmpty_iff, beq_iff_eq] at hdir
        exact endsOpen_append hdir p.chars
      · rw [← List.singleton_append, ← List.append_assoc]
        exact endsOpen_append (.inr List.getLast?_concat) p.chars

/-! ## The extension -/

/-- The extension is looked for in the last name, if that is one of a file. -/
theorem extension?_of_names (hnames : p.names = early ++ [last]) (hlast : last.NamesFile) :
    p.extension? = last.splitExtension.2 := by
  have hgoes : ¬ last.staysHere = true := Bool.eq_false_iff.mp hlast.staysHere
  rw [extension?, fileName?, hnames, List.reverse_concat, List.dropWhile_cons_of_neg hgoes]
  dsimp only
  rw [if_neg hlast.2.2, Option.bind_some]

/-- A name with the extension put to it is one of a file. -/
theorem namesFile_append_levelExtension (n : Name) :
    Name.NamesFile (n ++ '.' :: levelExtension) := by
  have hne : ∀ m : Name, m.length < 7 → n ++ '.' :: levelExtension ≠ m := by
    rintro _ hlength rfl
    rw [List.length_append] at hlength
    exact absurd (Nat.lt_of_le_of_lt (Nat.le_add_left ..) hlength) (by decide)
  exact ⟨hne _ (by decide), hne _ (by decide), hne _ (by decide)⟩

/-- What has been put to a name is its extension, unless the name was empty. -/
theorem splitExtension_append_levelExtension (n : Name) :
    (Name.splitExtension (n ++ '.' :: levelExtension)).2 =
      if n = [] then none else some levelExtension := by
  have hcut : Text.cut? (· == '.') (n ++ '.' :: levelExtension).reverse =
      some (levelExtension.reverse, n.reverse) := by
    rw [Text.cut?_beq_eq_some_iff]
    exact ⟨by simp, by decide⟩
  rw [Name.splitExtension, hcut]
  cases n using List.reverseRecOn with
  | nil => rfl
  | append_singleton init c => simp

/-- **What putting the extension to a path does**: it is put to the last name, and is the extension
of the path then, unless there is no name at the end. -/
theorem append_levelExtension_spec (p : Path) :
    let q : Path := ⟨p.chars ++ '.' :: levelExtension⟩
    ∃ (early : List Name) (last : Name), (p.EndsOpen ↔ last = []) ∧ p.names = early ++ [last] ∧
      q.names = early ++ [last ++ '.' :: levelExtension] ∧
      q.extension? = if last = [] then none else some levelExtension := by
  intro q
  obtain ⟨front, early, last, hfront, hlast, rfl, hnames⟩ := p.exists_front
  have hslash : '/' ∉ last ++ '.' :: levelExtension := by
    rw [List.mem_append, not_or]
    exact ⟨hlast, by decide⟩
  have hq : q.names = early ++ [last ++ '.' :: levelExtension] := by
    rw [← hnames _ hslash, ← List.append_assoc]
  refine ⟨early, last, (endsOpen_append hfront last).trans (endsOpen_iff_of_not_mem hlast),
    hnames last hlast, hq, ?_⟩
  rw [extension?_of_names hq (namesFile_append_levelExtension last),
    splitExtension_append_levelExtension]

theorem withLevelExtension_eq_self_iff :
    p.withLevelExtension = p ↔ p.extension? = some levelExtension := by
  rw [withLevelExtension]
  split <;> rename_i hextension
  · exact iff_of_true rfl hextension
  · refine iff_of_false (fun h ↦ ?_) hextension
    have hlength := congrArg (fun q ↦ q.chars.length) h
    simp at hlength

/-- **The extension is there afterwards** if it was before, or if there was a name to put it to. -/
theorem extension?_withLevelExtension_iff : p.withLevelExtension.extension? = some levelExtension ↔
    p.extension? = some levelExtension ∨ ¬ p.EndsOpen := by
  rw [withLevelExtension]
  split <;> rename_i hextension
  · exact iff_of_true hextension (.inl hextension)
  · obtain ⟨early, last, hopen, -, -, hq⟩ := p.append_levelExtension_spec
    rw [hq, hopen, or_iff_right hextension]
    by_cases hlast : last = [] <;> simp [hlast]

/-! ## Names that go on -/

/-- The names that go on to another place. -/
def going (names : List Name) : List Name := names.filter fun n ↦ !n.staysHere

theorem prefix_dropStaying (names : List Name) : dropStaying names <+: names := by
  rw [dropStaying, ← List.reverse_suffix, List.reverse_reverse]
  exact List.dropWhile_suffix _

theorem going_dropStaying (names : List Name) : going (dropStaying names) = going names := by
  have hdrop : ∀ l : List Name, going (l.dropWhile Name.staysHere) = going l := by
    intro l
    induction l with
    | nil => rfl
    | cons n rest ih =>
      by_cases hn : n.staysHere = true
      · rw [List.dropWhile_cons_of_pos hn, ih, going, going, List.filter_cons_of_neg (by simp [hn])]
      · rw [List.dropWhile_cons_of_neg hn]
  have hreverse : ∀ l : List Name, going l.reverse = (going l).reverse :=
    fun _ ↦ List.filter_reverse
  rw [dropStaying, hreverse, hdrop, hreverse, List.reverse_reverse]

/-- Nothing is dropped behind a name that goes on. -/
theorem dropStaying_concat (hlast : last.staysHere = false) (early : List Name) :
    dropStaying (early ++ [last]) = early ++ [last] := by
  rw [dropStaying, List.reverse_concat, List.dropWhile_cons_of_neg (by simp [hlast]),
    List.reverse_cons, List.reverse_reverse]

theorem prefix_relativeNames (names : List Name) : relativeNames names <+: names := by
  rw [relativeNames]
  split <;> rename_i hhere
  · obtain ⟨rest, hrest⟩ := List.head?_eq_some_iff.mp hhere.2
    exact ⟨rest, hrest.symm⟩
  · exact prefix_dropStaying names

theorem going_relativeNames (names : List Name) : going (relativeNames names) = going names := by
  rw [relativeNames]
  split <;> rename_i hhere
  · rw [← going_dropStaying names, hhere.1]
    rfl
  · exact going_dropStaying names

theorem relativeNames_concat (hlast : last.staysHere = false) (early : List Name) :
    relativeNames (early ++ [last]) = early ++ [last] := by
  rw [relativeNames, dropStaying_concat hlast, if_neg (by simp)]

/-- Names that have been put together lead where they led, though there may be an empty one more. -/
theorem going_split_intercalate {names : List Name} (h : ∀ n ∈ names, '/' ∉ n) :
    going (Text.split '/' (['/'].intercalate names)) = going names := by
  by_cases hnames : names = []
  · subst hnames
    rfl
  · rw [Text.split_eq_iff.mpr ⟨hnames, h, rfl⟩]

/-! ## The directory of a file -/

/-- The first name of an absolute path is the empty one before its slash. -/
theorem exists_early_of_isAbsolute (h : p.isAbsolute = true) (hnames : p.names = early ++ [last])
    (hlast : last.staysHere = false) : ∃ rest, early = [] :: rest := by
  obtain ⟨rest, hrest⟩ := List.head?_eq_some_iff.mp (beq_iff_eq.mp h)
  rw [names, hrest, Text.split, if_pos rfl] at hnames
  cases early with
  | nil =>
    rw [List.nil_append, List.cons.injEq] at hnames
    rw [← hnames.1] at hlast
    cases hlast
  | cons first early =>
    rw [List.cons_append, List.cons.injEq] at hnames
    exact ⟨early, by rw [← hnames.1]⟩

theorem parent?_of_isAbsolute (h : p.isAbsolute = true) (hnames : p.names = [] :: early ++ [last])
    (hlast : last.staysHere = false) :
    p.parent? = some ⟨'/' :: ['/'].intercalate (dropStaying early)⟩ := by
  rw [parent?, if_pos h, hnames, List.cons_append, List.tail_cons, dropStaying_concat hlast]
  split
  · exact absurd ‹_› (List.append_ne_nil_of_right_ne_nil _ (List.cons_ne_nil _ _))
  · rw [List.dropLast_concat]

theorem parent?_of_not_isAbsolute (h : ¬ p.isAbsolute = true) (hnames : p.names = early ++ [last])
    (hlast : last.staysHere = false) :
    p.parent? = some ⟨['/'].intercalate (relativeNames early)⟩ := by
  rw [parent?, if_neg h, hnames, relativeNames_concat hlast]
  split
  · exact absurd ‹_› (List.append_ne_nil_of_right_ne_nil _ (List.cons_ne_nil _ _))
  · rw [List.dropLast_concat]

/-- **The path of the directory** in which the last name stands starts like the path itself, and
leads the way of the names before the last one. -/
theorem parent?_spec (hnames : p.names = early ++ [last]) (hlast : last.staysHere = false)
    (hparent : p.parent? = some parent) :
    parent.chars <+: p.chars ∧ going parent.names = going early := by
  have hslash : ∀ n ∈ early, '/' ∉ n := fun n hn ↦
    Text.not_mem_of_mem_split (hnames ▸ List.mem_append_left _ hn : n ∈ p.names)
  by_cases h : p.isAbsolute = true
  · obtain ⟨rest, rfl⟩ := exists_early_of_isAbsolute h hnames hlast
    rw [parent?_of_isAbsolute h hnames hlast] at hparent
    obtain rfl := Option.some.inj hparent
    have hstart : dropStaying rest <+: rest := prefix_dropStaying rest
    refine ⟨?_, ?_⟩
    · rw [← intercalate_names p, hnames, List.cons_append,
        List.intercalate_cons_of_ne_nil (by simp)]
      exact List.cons_prefix_cons.mpr
        ⟨rfl, Text.prefix_intercalate (hstart.trans (List.prefix_append ..))⟩
    · calc going (names ⟨'/' :: ['/'].intercalate (dropStaying rest)⟩)
          = going (Text.split '/' (['/'].intercalate (dropStaying rest))) := rfl
        _ = going (dropStaying rest) := going_split_intercalate fun n hn ↦
          hslash n (List.mem_cons_of_mem _ (hstart.subset hn))
        _ = going ([] :: rest) := going_dropStaying rest
  · rw [parent?_of_not_isAbsolute h hnames hlast] at hparent
    obtain rfl := Option.some.inj hparent
    have hstart : relativeNames early <+: early := prefix_relativeNames early
    refine ⟨?_, ?_⟩
    · rw [← intercalate_names p, hnames]
      exact Text.prefix_intercalate (hstart.trans (List.prefix_append ..))
    · rw [names, going_split_intercalate fun n hn ↦ hslash n (hstart.subset hn),
        going_relativeNames]

theorem exists_ancestors_eq_cons (p : Path) (limit : Nat) :
    ∃ above, p.ancestors limit = p :: above := by
  cases limit with
  | zero => exact ⟨[], rfl⟩
  | succ limit =>
    rw [ancestors]
    split
    · exact ⟨[], rfl⟩
    · exact ⟨_, rfl⟩

/-- A path that starts like another one sets out from the same place, unless it is empty. -/
theorem isAbsolute_of_start (h : q.chars <+: p.chars) (hne : q.chars ≠ []) :
    q.isAbsolute = p.isAbsolute := by
  obtain ⟨c, rest, hq⟩ := List.exists_cons_of_ne_nil hne
  obtain ⟨more, hp⟩ := h
  rw [isAbsolute, isAbsolute, ← hp, hq, List.cons_append, List.head?_cons, List.head?_cons]

end Path

end MolePuzzle
