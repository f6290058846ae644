import MolePuzzle.Proofs.Disk
import MolePuzzle.Proofs.PathText

/-!
# Saving again where a level was saved

When a level has been saved, the path of its file is reported, and saving to that path should lead
to the same file.  Two things are needed for this.

* Nothing is appended to the path a second time.  This is so exactly if it has the extension of
  level files (`Path.withLevelExtension_eq_self_iff`), and it gets that extension wherever there is
  a name to put it to.
* What had to be there for writing the file is there still.  The directories on the way have not
  gone (`Disk.locateNew_of_locateNew`), and since the directory of the file is among them, none is
  made again (`LevelFile.prepare_of_locateNew`).

The first can fail: a path that is empty or ends in a slash has no name at its end, and what is
appended becomes a name without an extension.  A level saved there is saved to another file the next
time.  `LevelFile.saved_again` has both sides.
-/

set_option autoImplicit false

namespace MolePuzzle

namespace Disk

open MolePuzzle.Path (going)

variable {d d' : Disk} {p q parent : Path} {l m : Location} {n : Name} {names names' : List Name}
  {bytes old : List UInt8} {overwrite overwrite' : Bool}

/-! ## The way to a directory -/

theorem enter_eq_ok_iff :
    d.enter l n = .ok m ↔ lookUp l n = .ok m ∧ d.node? m = some .directory := by
  rw [enter, bind_eq_ok_iff]
  constructor
  · rintro ⟨next, hnext, h⟩
    split at h
    · cases h
      exact ⟨hnext, ‹_›⟩
    · cases h
    · cases h
  · rintro ⟨hnext, hm⟩
    refine ⟨m, hnext, ?_⟩
    rw [hm]
    rfl

theorem enter_of_staysHere (hn : n.staysHere = true) (hl : d.node? l = some .directory) :
    d.enter l n = .ok l := enter_eq_ok_iff.mpr ⟨if_pos hn, hl⟩

theorem node?_origin (d : Disk) (p : Path) : d.node? (origin p) = some .directory := by
  rw [origin]
  split <;> exact node?_of_isGiven rfl

/-- Names that stay where they are make no difference to a way. -/
theorem foldlM_enter_going (hl : d.node? l = some .directory) (names : List Name) :
    names.foldlM d.enter l = (going names).foldlM d.enter l := by
  induction names generalizing l with
  | nil => rfl
  | cons n rest ih =>
    cases hn : n.staysHere with
    | true =>
      rw [going, List.filter_cons_of_neg (by simp [hn]), List.foldlM_cons, enter_of_staysHere hn hl]
      exact ih hl
    | false =>
      rw [going, List.filter_cons_of_pos (by simp [hn]), List.foldlM_cons, List.foldlM_cons]
      cases hm : d.enter l n with
      | error refusal => rfl
      | ok m => exact ih (enter_eq_ok_iff.mp hm).2

theorem walk_congr (horigin : p.isAbsolute = q.isAbsolute) (hgoing : going names = going names') :
    d.walk p names = d.walk q names' := by
  have hsame : origin p = origin q := by rw [origin, origin, horigin]
  rw [walk, walk, foldlM_enter_going (d.node?_origin p), foldlM_enter_going (d.node?_origin q),
    hsame, hgoing]

theorem node?_of_walk (h : d.walk p names = .ok l) : d.node? l = some .directory := by
  cases names using List.reverseRecOn with
  | nil =>
    cases h
    exact d.node?_origin p
  | append_singleton early last =>
    rw [walk, List.foldlM_append, bind_eq_ok_iff] at h
    obtain ⟨directory, -, h⟩ := h
    rw [List.foldlM_cons, bind_eq_ok_iff] at h
    obtain ⟨next, hnext, h⟩ := h
    cases h
    exact (enter_eq_ok_iff.mp hnext).2

/-- A path whose names lead to a directory refers to it. -/
theorem locate_of_walk (hcheck : checkPath p = .ok ()) (h : d.walk p p.names = .ok l) :
    d.locate p = .ok l := by
  obtain ⟨early, last, hnames⟩ : ∃ early last, p.names = early ++ [last] :=
    List.eq_nil_or_concat' _ |>.resolve_left (Text.split_ne_nil '/' p.chars)
  rw [hnames, walk, List.foldlM_append, bind_eq_ok_iff] at h
  obtain ⟨directory, hwalk, h⟩ := h
  rw [List.foldlM_cons, bind_eq_ok_iff] at h
  obtain ⟨next, hnext, h⟩ := h
  cases h
  rw [locate, hcheck, hnames, List.dropLast_concat, List.getLast?_concat]
  refine bind_eq_ok_iff.mpr ⟨(), rfl, bind_eq_ok_iff.mpr ⟨directory, hwalk, ?_⟩⟩
  exact (enter_eq_ok_iff.mp hnext).1

/-! ## The directory of a file that is written -/

/-- The start of a path can be followed if the path can. -/
theorem checkPath_of_start (h : checkPath p = .ok ()) (hstart : q.chars <+: p.chars)
    (hne : q.chars ≠ []) : checkPath q = .ok () := by
  obtain ⟨more, hmore⟩ := hstart
  rw [checkPath] at h ⊢
  split at h <;> rename_i hnull
  · cases h
  · split at h
    · cases h
    · split at h <;> rename_i hlength
      · cases h
      · rw [← hmore, Text.Utf8.encode_append, List.length_append] at hlength
        rw [← hmore, List.mem_append, not_or] at hnull
        rw [if_neg hnull.1, if_neg (by simp [hne]), if_neg (by omega)]

/-- **The directory of a file is there** if the file can be written. -/
theorem locate_parent (h : d.locateNew p overwrite = .ok l) (hparent : p.parent? = some parent)
    (hne : parent.chars ≠ []) : ∃ m, d.locate parent = .ok m ∧ d.node? m = some .directory := by
  obtain ⟨last, directory, hlast, hfile, hcheck, hwalk, -⟩ := exists_last_of_locateNew h
  obtain ⟨early, hnames⟩ := List.getLast?_eq_some_iff.mp hlast
  have hfile : last.NamesFile := hfile
  obtain ⟨hstart, hgoing⟩ := Path.parent?_spec hnames hfile.staysHere hparent
  rw [hnames, List.dropLast_concat] at hwalk
  rw [← walk_congr (Path.isAbsolute_of_start hstart hne) hgoing] at hwalk
  exact ⟨directory, locate_of_walk (checkPath_of_start hcheck hstart hne) hwalk,
    node?_of_walk hwalk⟩

/-- A directory that is there is not made again. -/
theorem makeAll_of_directory (hlocate : d.locate p = .ok l) (hl : d.node? l = some .directory)
    (hne : p.chars ≠ []) : d.makeAll p = (d, .ok ()) := by
  obtain ⟨above, habove⟩ := p.exists_ancestors_eq_cons p.chars.length
  have hmake : d.makeDirectory p = .error .alreadyExists := by
    rw [makeDirectory, hlocate]
    show (if (d.node? l).isSome then Except.error Refusal.alreadyExists else _) = _
    rw [hl]
    rfl
  have hat : d.at? p = some .directory := by rw [at?, hlocate]; exact hl
  rw [makeAll, habove, makeDirectories, if_neg (by simp [hne]), hmake]
  dsimp only
  rw [if_pos hat]

/-! ## Writing where there is a file -/

/-- What is refused when a file is written does not depend on whether it may be replaced. -/
theorem locateNew_of_locateNew
    (hdirs : ∀ m, d.node? m = some .directory → d'.node? m = some .directory)
    (h : d.locateNew p overwrite = .ok l) : d'.locateNew p overwrite' = .ok l := by
  obtain ⟨last, directory, hlast, ⟨hempty, hhere, habove⟩, hcheck, hwalk, hlook⟩ :=
    exists_last_of_locateNew h
  obtain ⟨early, hnames⟩ := List.getLast?_eq_some_iff.mp hlast
  have hall : (p.names.reverse.dropWhile List.isEmpty).reverse = p.names := by
    rw [hnames, List.reverse_concat, List.dropWhile_cons_of_neg (by simpa using hempty),
      List.reverse_cons, List.reverse_reverse]
  rw [locateNew, hcheck]
  dsimp only [bind, Except.bind]
  rw [hall, hlast]
  dsimp only
  rw [walk_of_walk hdirs hwalk]
  dsimp only
  rw [if_neg (not_or.mpr ⟨hhere, habove⟩)]
  simpa [pure, Except.pure] using hlook

theorem write_of_file (hlocate : d.locateNew p overwrite = .ok l)
    (hl : d.node? l = some (.file old)) : d.write p bytes overwrite =
      if overwrite then .ok (d.put l (.file bytes)) else .error .alreadyExists := by
  rw [write, hlocate]
  dsimp only [bind, Except.bind]
  rw [hl]
  rfl

/-- The place a path refers to has the last name of the path, if that is one of a file. -/
theorem getLast?_of_locate {last : Name} (h : d.locate p = .ok l)
    (hlast : p.names.getLast? = some last) (hfile : last.NamesFile) : l.getLast? = some last := by
  rw [locate, bind_eq_ok_iff] at h
  obtain ⟨_, -, h⟩ := h
  rw [bind_eq_ok_iff, hlast, Option.getD_some] at h
  obtain ⟨directory, -, h⟩ := h
  rw [lookUp, if_neg (by simp [hfile.staysHere])] at h
  split at h
  · cases h
  · cases h
    rw [Location.child, if_neg hfile.2.2, List.getLast?_concat]

end Disk

namespace LevelFile

open MolePuzzle.Path (levelExtension)

variable {d d' d'' : Disk} {p again : Path} {l : Location} {bytes bytes' old : List UInt8}
  {overwrite overwrite' : Bool}

/-! ## Saving -/

/-- Where a file can be written there is nothing to be made for it. -/
theorem prepare_of_locateNew (h : d.locateNew p overwrite = .ok l) :
    prepare d p = (d, .ok ()) := by
  rw [prepare]
  split
  · rfl
  · rename_i parent hparent
    split <;> rename_i hempty
    · rfl
    · have hne : parent.chars ≠ [] := by simpa using hempty
      obtain ⟨m, hlocate, hm⟩ := Disk.locate_parent h hparent hne
      rw [Disk.makeAll_of_directory hlocate hm hne]
      rfl

/-- **Saving where there is a file** replaces it or tells that it is there, if the path has the
extension already. -/
theorem save_of_file (hextension : p.extension? = some levelExtension)
    (hlocate : d.locateNew p overwrite = .ok l) (hl : d.node? l = some (.file old)) :
    save d p bytes overwrite =
      if overwrite then (d.put l (.file bytes), .ok p) else (d, .error (.taken p)) := by
  rw [save, Path.withLevelExtension_eq_self_iff.mpr hextension, prepare_of_locateNew hlocate]
  dsimp only
  rw [writeAt, Disk.write_of_file hlocate hl]
  cases overwrite <;> rfl

/-- **Saving where the extension is appended again** writes another file, and leaves the one that
the path leads to as it is. -/
theorem file?_of_save_elsewhere (hextension : p.extension? ≠ some levelExtension)
    (hlocate : d.locateNew p overwrite = .ok l) (hfile : d.file? l = some old)
    (h : save d p bytes overwrite' = (d', .ok again)) : again ≠ p ∧ d'.file? l = some old := by
  obtain ⟨rfl, m, hm, -⟩ := exists_written_of_save h
  obtain ⟨last, -, hlast, hfirst, -⟩ := Disk.exists_last_of_locateNew hlocate
  obtain ⟨early, last', -, hnames, hnames', -⟩ := p.append_levelExtension_spec
  obtain rfl : last' = last := by
    rw [hnames, List.getLast?_concat] at hlast
    exact Option.some.inj hlast
  have hsecond := hm.locate_eq
  rw [Path.withLevelExtension, if_neg hextension] at hsecond
  have hl : l.getLast? = some last' :=
    Disk.getLast?_of_locate (Disk.locate_of_locateNew hlocate) hlast hfirst
  have hm' : m.getLast? = some (last' ++ '.' :: levelExtension) :=
    Disk.getLast?_of_locate hsecond (by rw [hnames', List.getLast?_concat])
      (Path.namesFile_append_levelExtension last')
  refine ⟨fun hsame ↦ hextension (Path.withLevelExtension_eq_self_iff.mp hsame), ?_⟩
  rw [hm.file?_of_ne, hfile]
  rintro rfl
  have hlength := congrArg (fun n ↦ (n.getD []).length) (hl.symm.trans hm')
  simp at hlength

/-! ## The whole -/

/-- **Saving again at the path that was reported.**  Let a path be resolved, and let a level be
saved there.  Nothing is appended to the reported path a second time exactly if the resolved path
has the extension of level files, or the given path does not end open, as an empty one does and one
with a slash at its end.  This is also when the reported path has the extension.

* If so, saving to it again tells that the file is there, or replaces it if it may be replaced.
* Otherwise, saving to it again does not return it, and leaves the file as it is. -/
theorem saved_again (s : Settings) (p : Path) :
    let path := s.resolve p
    let kept := path.extension? = some levelExtension ∨ ¬ p.EndsOpen
    (path.withLevelExtension.extension? = some levelExtension ↔ kept) ∧
    (path.withLevelExtension.withLevelExtension = path.withLevelExtension ↔ kept) ∧
    ∀ d bytes overwrite d' written, save d path bytes overwrite = (d', .ok written) →
      written = path.withLevelExtension ∧ ∃ l, d.Written d' written l bytes ∧
        (kept → ∀ bytes', save d' written bytes' false = (d', .error (.taken written)) ∧
          ∃ d'', save d' written bytes' true = (d'', .ok written) ∧
            d'.Written d'' written l bytes') ∧
        (¬ kept → ∀ bytes' overwrite' d'' again,
          save d' written bytes' overwrite' = (d'', .ok again) →
            again ≠ written ∧ d''.file? l = some bytes) := by
  intro path kept
  have hkept : path.withLevelExtension.extension? = some levelExtension ↔ kept := by
    rw [Path.extension?_withLevelExtension_iff, Path.endsOpen_resolve]
  refine ⟨hkept, Path.withLevelExtension_eq_self_iff.trans hkept, ?_⟩
  intro d bytes overwrite d' written h
  obtain ⟨rfl, prepared, l, hgrown, hlocate, hnode, -, rfl⟩ := exists_put_of_save h
  have hwritten : prepared.Written (prepared.put l (.file bytes)) path.withLevelExtension l bytes :=
    Disk.written_put hlocate hnode
  have hgiven : l.isGiven = false := Disk.isGiven_eq_false hnode
  have hl : (prepared.put l (.file bytes)).node? l = some (.file bytes) := by
    rw [Disk.node?_put hgiven, if_pos rfl]
  have hdirs := fun m ↦ Disk.node?_put_of_directory (m := m) hnode bytes
  have hagain : ∀ overwrite', (prepared.put l (.file bytes)).locateNew path.withLevelExtension
      overwrite' = .ok l := fun _ ↦ Disk.locateNew_of_locateNew hdirs hlocate
  refine ⟨rfl, l, hwritten.of_grown hgrown, ?_, ?_⟩
  · intro hk bytes'
    have hextension := hkept.mpr hk
    refine ⟨save_of_file hextension (hagain _) hl, _, save_of_file hextension (hagain _) hl, ?_⟩
    exact Disk.written_put (hagain true) (by simp [hl])
  · intro hk bytes' overwrite' d'' again h'
    exact file?_of_save_elsewhere (fun hextension ↦ hk (hkept.mp hextension)) (hagain true)
      hwritten.file?_eq h'

/-- A level saved to `walk` in the directory for levels is found there by the path that is reported,
and one saved to that directory itself is not. -/
theorem saved_again_resolved :
    let s : Settings := { levelsDir := some (.ofString "levels") }
    let named := Path.ofString "levels/walk.wmgame"
    let bare := Path.ofString "levels/.wmgame"
    (s.resolve (.ofString "walk")).withLevelExtension = named ∧
      named.extension? = some levelExtension ∧
      (∃ d d' l, save {} (s.resolve (.ofString "walk")) [77, 10] false = (d, .ok named) ∧
        save d named [70, 10] false = (d, .error (.taken named)) ∧
        save d named [70, 10] true = (d', .ok named) ∧ d.Written d' named l [70, 10]) ∧
      (s.resolve (.ofString "")).withLevelExtension = bare ∧ bare.withLevelExtension ≠ bare ∧
      ∃ d d' again l, save {} (s.resolve (.ofString "")) [77, 10] false = (d, .ok bare) ∧
        save d bare [70, 10] true = (d', .ok again) ∧ again ≠ bare ∧
        d'.file? l = some [77, 10] := by
  intro s named bare
  have hnamed : (s.resolve (.ofString "walk")).withLevelExtension = named := by decide
  have hbare : (s.resolve (.ofString "")).withLevelExtension = bare := by decide
  have hkept : (s.resolve (.ofString "walk")).extension? = some levelExtension ∨
      ¬ (Path.ofString "walk").EndsOpen := by decide
  have hlost : ¬ ((s.resolve (.ofString "")).extension? = some levelExtension ∨
      ¬ (Path.ofString "").EndsOpen) := by decide
  obtain ⟨hextension, -, hsave⟩ := saved_again s (.ofString "walk")
  obtain ⟨-, honce, hsave'⟩ := saved_again s (.ofString "")
  rw [hnamed] at hextension
  rw [hbare] at honce
  refine ⟨hnamed, hextension.mpr hkept, ?_, hbare, fun h ↦ hlost (honce.mp h), ?_⟩
  · have hfirst : (save {} (s.resolve (.ofString "walk")) [77, 10] false).2 = .ok named := by
      decide +kernel
    rcases hd : save {} (s.resolve (.ofString "walk")) [77, 10] false with ⟨d, outcome⟩
    rw [hd] at hfirst
    subst hfirst
    obtain ⟨-, l, -, hfound, -⟩ := hsave _ _ _ _ _ hd
    obtain ⟨htaken, d', hreplaced, hwritten⟩ := hfound hkept [70, 10]
    exact ⟨d, d', l, rfl, htaken, hreplaced, hwritten⟩
  · have hfirst : (save {} (s.resolve (.ofString "")) [77, 10] false).2 = .ok bare := by
      decide +kernel
    have hsecond :
        (save (save {} (s.resolve (.ofString "")) [77, 10] false).1 bare [70, 10] true).2 =
          .ok (.ofString "levels/.wmgame.wmgame") := by decide +kernel
    rcases hd : save {} (s.resolve (.ofString "")) [77, 10] false with ⟨d, outcome⟩
    rw [hd] at hfirst hsecond
    subst hfirst
    rcases hd' : save d bare [70, 10] true with ⟨d', again⟩
    rw [hd'] at hsecond
    subst hsecond
    obtain ⟨-, l, -, -, helse⟩ := hsave' _ _ _ _ _ hd
    obtain ⟨hagain, hfile⟩ := helse hlost _ _ _ _ hd'
    exact ⟨d, d', _, l, rfl, hd', hagain, hfile⟩

/-- A path that ends in a slash gets a name that is all stem, to which the extension is appended
again: the level that is to replace the one just saved goes to another file. -/
theorem appended_twice :
    let path := Path.ofString "a/"
    let written := Path.ofString "a/.wmgame"
    let first := save {} path [77, 10] false
    let second := save first.1 written [70, 10] true
    path.withLevelExtension = written ∧ written.extension? ≠ some levelExtension ∧
      written.withLevelExtension ≠ written ∧ first.2 = .ok written ∧
      second.2 = .ok (.ofString "a/.wmgame.wmgame") ∧
      second.1.files = [(.ofString "a/.wmgame.wmgame", [70, 10]), (written, [77, 10])] := by
  decide +kernel

end LevelFile

end MolePuzzle
