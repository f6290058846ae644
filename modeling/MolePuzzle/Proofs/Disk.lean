import MolePuzzle.LevelFile
import MolePuzzle.Proofs.Result

/-!
# What writing does to a disk

Making directories only ever adds directories (`Disk.Grown`): all that was there stays, and the
files are the same.  Writing a file changes the one place that its path leads to
(`Disk.Written`), and that place can be found again by the same path.

A level file is saved by these two, one after the other: if it fails the disk has at most grown, and
if it succeeds one file differs, which was there before only if it could be replaced.
-/

set_option autoImplicit false

namespace MolePuzzle

namespace Disk

variable {d d' d'' : Disk} {p : Path} {l m : Location} {names : List Name} {bytes : List UInt8}
  {overwrite : Bool}

/-! ## Places -/

theorem node?_of_isGiven (h : l.isGiven = true) : d.node? l = some .directory := if_pos h

/-- A place without a directory is none of those that are always there. -/
theorem isGiven_eq_false (h : d.node? l ≠ some .directory) : l.isGiven = false :=
  Bool.eq_false_iff.mpr fun hgiven ↦ h (node?_of_isGiven hgiven)

theorem file?_eq_some_iff : d.file? l = some bytes ↔ d.node? l = some (.file bytes) := by
  unfold file?
  split
  · rename_i node
    rw [node]
    simp
  · rename_i hother
    exact iff_of_false (by simp) (hother bytes)

theorem file?_congr (h : d'.node? l = d.node? l) : d'.file? l = d.file? l := by
  unfold file?
  rw [h]

theorem file?_put (h : d.node? l ≠ some .directory) :
    (d.put l (.file bytes)).file? m = if m = l then some bytes else d.file? m := by
  have hput := d.node?_put (m := m) (n := .file bytes) (isGiven_eq_false h)
  split
  · rw [file?_eq_some_iff, hput, if_pos ‹_›]
  · exact file?_congr (hput.trans (if_neg ‹_›))

/-! ## Making directories -/

/-- The disk has grown: all is as it was, except that there can be directories where there was
nothing. -/
def Grown (d d' : Disk) : Prop :=
  ∀ l, d'.node? l = d.node? l ∨ d.node? l = none ∧ d'.node? l = some .directory

theorem Grown.refl (d : Disk) : d.Grown d := fun _ ↦ .inl rfl

theorem Grown.trans (h : d.Grown d') (h' : d'.Grown d'') : d.Grown d'' := by
  intro l
  rcases h' l with hsame | ⟨hnone, hmade⟩
  · rw [hsame]
    exact h l
  · rcases h l with hold | ⟨hold, -⟩
    · exact .inr ⟨hold ▸ hnone, hmade⟩
    · exact .inr ⟨hold, hmade⟩

/-- A disk that has grown has the files that it had. -/
theorem Grown.file?_eq (h : d.Grown d') (l : Location) : d'.file? l = d.file? l := by
  rcases h l with hsame | ⟨hnone, hmade⟩
  · exact file?_congr hsame
  · unfold file?
    rw [hnone, hmade]

/-- Where there is nothing now, there was nothing before. -/
theorem Grown.node?_eq_none (h : d.Grown d') (hnone : d'.node? l = none) : d.node? l = none := by
  rcases h l with hsame | ⟨hold, -⟩
  · rwa [hsame] at hnone
  · exact hold

theorem grown_put (h : d.node? l = none) : d.Grown (d.put l .directory) := by
  intro m
  have hgiven : l.isGiven = false := isGiven_eq_false (d := d) (by simp [h])
  rw [node?_put hgiven]
  split
  · rename_i hm
    exact .inr ⟨hm ▸ h, rfl⟩
  · exact .inl rfl

theorem grown_makeDirectory (h : d.makeDirectory p = .ok d') : d.Grown d' := by
  rw [makeDirectory, bind_eq_ok_iff] at h
  obtain ⟨l, -, hmade⟩ := h
  split at hmade
  · cases hmade
  · rename_i hnone
    cases hmade
    exact grown_put (Option.not_isSome_iff_eq_none.mp hnone)

/-- **Making directories makes nothing else**, whether it succeeds or not. -/
theorem grown_makeDirectories (d : Disk) (paths : List Path) :
    d.Grown (d.makeDirectories paths).1 := by
  induction paths with
  | nil => exact .refl d
  | cons p above ih =>
    rw [makeDirectories]
    split
    · exact .refl d
    · split
      · exact grown_makeDirectory ‹_›
      · -- The directories above are made first, and then this one is tried again.
        split
        · rename_i hup
          rwa [hup] at ih
        · rename_i hup
          rw [hup] at ih
          split
          · exact ih.trans (grown_makeDirectory ‹_›)
          · exact ih
      · exact .refl d

/-! ## Finding a place again -/

/-- Names lead to the same directory on a disk that still has all directories. -/
theorem walk_of_walk (hdirs : ∀ l, d.node? l = some .directory → d'.node? l = some .directory)
    (h : d.walk p names = .ok l) : d'.walk p names = .ok l := by
  have henter : ∀ {l m : Location} {n : Name}, d.enter l n = .ok m → d'.enter l n = .ok m := by
    intro l m n h
    rw [enter, bind_eq_ok_iff] at h ⊢
    obtain ⟨next, hnext, hdir⟩ := h
    refine ⟨next, hnext, ?_⟩
    split at hdir
    · rw [hdirs _ ‹_›]
      exact hdir
    · cases hdir
    · cases hdir
  unfold walk at h ⊢
  generalize origin p = start at h ⊢
  induction names generalizing start with
  | nil => exact h
  | cons n rest ih =>
    rw [List.foldlM_cons, bind_eq_ok_iff] at h ⊢
    obtain ⟨next, hnext, hrest⟩ := h
    exact ⟨next, henter hnext, ih next hrest⟩

theorem locate_of_locate (hdirs : ∀ l, d.node? l = some .directory → d'.node? l = some .directory)
    (h : d.locate p = .ok l) : d'.locate p = .ok l := by
  rw [locate, bind_eq_ok_iff] at h ⊢
  obtain ⟨u, hcheck, hlocate⟩ := h
  rw [bind_eq_ok_iff] at hlocate
  obtain ⟨directory, hwalk, hlook⟩ := hlocate
  exact ⟨u, hcheck, bind_eq_ok_iff.mpr ⟨directory, walk_of_walk hdirs hwalk, hlook⟩⟩

/-- A path has a file written only if it ends in a name, and all that it passes through is there. -/
theorem exists_last_of_locateNew (h : d.locateNew p overwrite = .ok l) :
    ∃ last directory, p.names.getLast? = some last ∧
      (last ≠ [] ∧ last ≠ Name.here ∧ last ≠ Name.above) ∧
      checkPath p = .ok () ∧ d.walk p p.names.dropLast = .ok directory ∧
      lookUp directory last = .ok l := by
  rw [locateNew, bind_eq_ok_iff] at h
  obtain ⟨_, hcheck, h⟩ := h
  dsimp only at h
  split at h
  · cases h
  · rename_i last hlast
    rw [bind_eq_ok_iff] at h
    obtain ⟨directory, hwalk, h⟩ := h
    split at h
    · cases h
    · rename_i hname
      split at h
      · cases h
      · rename_i hnames
        have hall := Decidable.not_not.mp hnames
        rw [hall] at hlast hwalk
        refine ⟨last, directory, hlast, ⟨?_, not_or.mp hname⟩, hcheck, hwalk, h⟩
        -- No name has been dropped, so the last one is not empty.
        rintro rfl
        obtain ⟨early, hearly⟩ := List.getLast?_eq_some_iff.mp hlast
        have hlength := congrArg List.length hall
        have hdropped := (List.dropWhile_sublist List.isEmpty (l := early.reverse)).length_le
        rw [hearly, List.reverse_concat, List.dropWhile_cons_of_pos rfl] at hlength
        simp only [List.length_reverse, List.length_append, List.length_singleton]
          at hlength hdropped
        omega

/-- The place at which a file is written is the one that its path refers to. -/
theorem locate_of_locateNew (h : d.locateNew p overwrite = .ok l) : d.locate p = .ok l := by
  obtain ⟨last, directory, hlast, -, hcheck, hwalk, hlook⟩ := exists_last_of_locateNew h
  rw [locate, bind_eq_ok_iff]
  refine ⟨(), hcheck, ?_⟩
  rw [bind_eq_ok_iff, hlast]
  exact ⟨directory, hwalk, hlook⟩

/-- A file that is written has a name. -/
theorem exists_stem?_of_locateNew (h : d.locateNew p overwrite = .ok l) :
    ∃ stem, p.stem? = some stem := by
  obtain ⟨last, -, hlast, ⟨hempty, hhere, habove⟩, -⟩ := exists_last_of_locateNew h
  obtain ⟨early, hearly⟩ := List.getLast?_eq_some_iff.mp hlast
  have hgoes : ¬ last.staysHere = true := by simp [Name.staysHere, hempty, hhere]
  refine ⟨last.splitExtension.1, ?_⟩
  rw [Path.stem?, Path.fileName?, hearly, List.reverse_concat, List.dropWhile_cons_of_neg hgoes]
  simp [habove]

/-! ## Reading a file -/

theorem read_eq_ok_iff :
    d.read p = .ok bytes ↔ ∃ l, d.locate p = .ok l ∧ d.file? l = some bytes := by
  rw [read, bind_eq_ok_iff]
  refine exists_congr fun l ↦ and_congr_right fun _ ↦ ?_
  rw [file?_eq_some_iff]
  cases d.node? l with
  | none => simp
  | some node => cases node <;> simp [pure, Except.pure]

/-! ## Writing a file -/

/-- The disk differs in the one file that the path leads to, which holds the bytes. -/
structure Written (d d' : Disk) (p : Path) (l : Location) (bytes : List UInt8) : Prop where
  locate_eq : d'.locate p = .ok l
  file?_eq : d'.file? l = some bytes
  file?_of_ne : ∀ m ≠ l, d'.file? m = d.file? m

theorem Written.of_grown (hgrown : d.Grown d') (h : d'.Written d'' p l bytes) :
    d.Written d'' p l bytes :=
  ⟨h.locate_eq, h.file?_eq, fun m hm ↦ (h.file?_of_ne m hm).trans (hgrown.file?_eq m)⟩

/-- What writing does: the file is put at the place for it, which holds no directory, and holds
nothing unless a file may be replaced. -/
theorem exists_put_of_write (h : d.write p bytes overwrite = .ok d') :
    ∃ l, d.locateNew p overwrite = .ok l ∧ d.node? l ≠ some .directory ∧
      (overwrite = false → d.node? l = none) ∧ d' = d.put l (.file bytes) := by
  rw [write, bind_eq_ok_iff] at h
  obtain ⟨l, hlocate, hput⟩ := h
  refine ⟨l, hlocate, ?_⟩
  split at hput
  · rename_i hnone
    cases hput
    exact ⟨by simp [hnone], fun _ ↦ hnone, rfl⟩
  · rename_i hfile
    split at hput
    · rename_i hoverwrite
      cases hput
      exact ⟨by simp [hfile], fun hkeep ↦ absurd hoverwrite (by simp [hkeep]), rfl⟩
    · cases hput
  · cases hput

/-- A file that is written takes the place of no directory. -/
theorem node?_put_of_directory (hnode : d.node? l ≠ some .directory) (bytes : List UInt8)
    (hm : d.node? m = some .directory) : (d.put l (.file bytes)).node? m = some .directory := by
  have hne : m ≠ l := fun h ↦ hnode (h ▸ hm)
  rw [node?_put (isGiven_eq_false hnode), if_neg hne, hm]

/-- **Writing changes one file.** -/
theorem written_put (hlocate : d.locateNew p overwrite = .ok l)
    (hnode : d.node? l ≠ some .directory) : d.Written (d.put l (.file bytes)) p l bytes := by
  have hdirs := fun m ↦ node?_put_of_directory (m := m) hnode bytes
  refine ⟨locate_of_locate hdirs (locate_of_locateNew hlocate), ?_, ?_⟩
  · rw [file?_put hnode, if_pos rfl]
  · intro m hm
    rw [file?_put hnode, if_neg hm]

end Disk

/-! ## Saving a level file -/

namespace LevelFile

variable {d d' : Disk} {path written : Path} {bytes : List UInt8} {overwrite : Bool}
  {made : Except SaveError Unit} {e : SaveError}

theorem grown_prepare (h : prepare d path = (d', made)) : d.Grown d' := by
  rw [prepare] at h
  split at h
  · cases h
    exact .refl d
  · split at h
    · cases h
      exact .refl d
    · cases h
      exact Disk.grown_makeDirectories d _

/-- A level file that is not saved leaves all files as they were. -/
theorem grown_of_save_eq_error (h : save d path bytes overwrite = (d', .error e)) :
    d.Grown d' := by
  rw [save] at h
  split at h
  · rename_i hprepare
    cases h
    exact grown_prepare hprepare
  · rename_i hprepare
    rw [writeAt] at h
    split at h <;> cases h <;> exact grown_prepare hprepare

/-- What saving does: directories are made, and then the file is put at the place for it. -/
theorem exists_put_of_save (h : save d path bytes overwrite = (d', .ok written)) :
    written = path.withLevelExtension ∧ ∃ prepared l, d.Grown prepared ∧
      prepared.locateNew written overwrite = .ok l ∧ prepared.node? l ≠ some .directory ∧
      (overwrite = false → d.node? l = none) ∧ d' = prepared.put l (.file bytes) := by
  rw [save] at h
  split at h
  · cases h
  · rename_i prepared hprepare
    have hgrown := grown_prepare hprepare
    rw [writeAt] at h
    split at h
    · rename_i hwrite
      cases h
      obtain ⟨l, hlocate, hnode, hkeep, rfl⟩ := Disk.exists_put_of_write hwrite
      exact ⟨rfl, prepared, l, hgrown, hlocate, hnode,
        fun hoverwrite ↦ hgrown.node?_eq_none (hkeep hoverwrite), rfl⟩
    · cases h
    · cases h

/-- A level file that is saved is the one file that differs, and an old one only if it may be
replaced. -/
theorem exists_written_of_save (h : save d path bytes overwrite = (d', .ok written)) :
    written = path.withLevelExtension ∧
      ∃ l, d.Written d' written l bytes ∧ (d.file? l ≠ none → overwrite = true) := by
  obtain ⟨rfl, prepared, l, hgrown, hlocate, hnode, hkeep, rfl⟩ := exists_put_of_save h
  refine ⟨rfl, l, (Disk.written_put hlocate hnode).of_grown hgrown, fun hfile ↦ ?_⟩
  refine eq_true_of_ne_false fun hoverwrite ↦ hfile ?_
  rw [Disk.file?, hkeep hoverwrite]

end LevelFile

end MolePuzzle
