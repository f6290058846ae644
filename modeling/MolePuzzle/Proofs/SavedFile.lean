import MolePuzzle.Proofs.Disk
import MolePuzzle.Proofs.Loading
import MolePuzzle.Proofs.SaveContents

/-!
# Level files are found again

What has been saved at a path can be loaded from the path that saving returned.  The extension that
is appended, the directories that are made on the way, and all that may have been at the path before
make no difference to that: a file is written only where its path leads, and only if the path ends
in a name, which is what the level that is loaded is called after.

So between saving and loading a level there is nothing but its text
(`LevelFile.load_saved`).
-/

set_option autoImplicit false

namespace MolePuzzle.LevelFile

variable {d d' : Disk} {path written : Path} {bytes : List UInt8} {overwrite : Bool} {stem : Name}
  {w : World}

/-- A level is loaded from a file exactly if the bytes of the file can be read as one, and it is
named after the file. -/
theorem load_eq_ok_iff (hread : d.read path = .ok bytes) (hstem : path.stem? = some stem) :
    load d path = .ok w ↔
      ∃ v, World.ofBytes bytes = .ok v ∧ w = v.named (String.ofList stem) := by
  rw [load, hread]
  dsimp only
  rw [hstem]
  cases World.ofBytes bytes with
  | error cause => simp
  | ok v => simp [World.named, eq_comm]

/-- **What is saved is loaded again**, if it can be read as a level at all. -/
theorem load_of_save (h : save d path bytes overwrite = (d', .ok written)) :
    ∃ stem, written.stem? = some stem ∧ ∀ w, load d' written = .ok w ↔
      ∃ v, World.ofBytes bytes = .ok v ∧ w = v.named (String.ofList stem) := by
  obtain ⟨-, prepared, l, -, hlocate, hnode, -, rfl⟩ := exists_put_of_save h
  obtain ⟨stem, hstem⟩ := Disk.exists_stem?_of_locateNew hlocate
  have hwritten : prepared.Written (prepared.put l (.file bytes)) written l bytes :=
    Disk.written_put hlocate hnode
  have hread := Disk.read_eq_ok_iff.mpr ⟨l, hwritten.locate_eq, hwritten.file?_eq⟩
  exact ⟨stem, hstem, fun _ ↦ load_eq_ok_iff hread hstem⟩

/-- **Saving and loading.**  Let bytes be saved at a path.

* If it fails, all files are as they were.
* If it succeeds, the file at the path that is returned holds the bytes, and no other file differs.
  Unless it was asked to replace what is there, there had been nothing at its place.  The level that
  is loaded from the path is the level that the bytes are read as, under the name of the file; none
  is loaded exactly if they cannot be read.

After any commands and levels that have given the field a size, a world that has been saved is
loaded as one with the same level text. -/
theorem load_saved (d : Disk) (path : Path) (overwrite : Bool) :
    (∀ bytes,
      let after := (save d path bytes overwrite).1
      let outcome := (save d path bytes overwrite).2
      (∀ e, outcome = .error e → ∀ l, after.file? l = d.file? l) ∧
      ∀ written, outcome = .ok written →
        (∃ l, d.Written after written l bytes ∧ (overwrite = false → d.node? l = none)) ∧
        ∃ stem, written.stem? = some stem ∧ ∀ w, load after written = .ok w ↔
          ∃ v, World.ofBytes bytes = .ok v ∧ w = v.named (String.ofList stem)) ∧
    ∀ inputs name,
      let w := (World.run {} inputs).1.named name
      let after := (save d path w.bytes overwrite).1
      let outcome := (save d path w.bytes overwrite).2
      w.field.size ≠ {} → ∀ written, outcome = .ok written →
        ∃ loaded, load after written = .ok loaded ∧ loaded.bytes = w.bytes := by
  refine ⟨fun bytes ↦ ?_, ?_⟩
  · intro after outcome
    have hsave : save d path bytes overwrite = (after, outcome) := rfl
    clear_value after outcome
    refine ⟨?_, ?_⟩
    · rintro e rfl
      exact (grown_of_save_eq_error hsave).file?_eq
    · rintro written rfl
      obtain ⟨-, prepared, l, hgrown, hlocate, hnode, hkeep, rfl⟩ := exists_put_of_save hsave
      exact ⟨⟨l, (Disk.written_put hlocate hnode).of_grown hgrown, hkeep⟩, load_of_save hsave⟩
  · intro inputs name w after outcome hsize written hwritten
    have hsave : save d path w.bytes overwrite = (after, .ok written) := Prod.ext rfl hwritten
    have hcharted := World.charted_run inputs
    obtain ⟨v, hread, -, hbytes⟩ :=
      World.exists_ofBytes_bytes (w := w) (hcharted.size.resolve_left hsize) hcharted.complete
    obtain ⟨stem, -, hload⟩ := load_of_save hsave
    exact ⟨_, (hload _).mpr ⟨v, hread, rfl⟩, hbytes⟩

/-- A file that is there is kept, or is replaced by bytes that are no level, and a corridor that has
been walked is saved in a directory that is made for it. -/
theorem load_saved_corridor :
    let old := Path.ofString "levels/old.wmgame"
    let d := Disk.ofFiles [(old, [77, 10])]
    let inputs : List Input := [.load (.rows [['M', 'F']]), .command (.move .right)]
    let w := (World.run {} inputs).1.named "corridor"
    let path := Path.ofString "new/./walk"
    let written := Path.ofString "new/./walk.wmgame"
    ((save d old w.bytes false).2 = .error (.taken old) ∧
        ∀ l, (save d old w.bytes false).1.file? l = d.file? l) ∧
      ((save d old [] true).2 = .ok old ∧ (∃ l, d.Written (save d old [] true).1 old l []) ∧
        ∀ v, load (save d old [] true).1 old ≠ .ok v) ∧
      (save d path w.bytes false).2 = .ok written ∧
      (∃ l, d.Written (save d path w.bytes false).1 written l w.bytes ∧ d.node? l = none) ∧
      load (save d path w.bytes false).1 written =
        .ok ((World.install {} w.toLayout).1.named "walk") ∧
      w.field.size ≠ {} ∧
      ∃ loaded, load (save d path w.bytes false).1 written = .ok loaded ∧
        loaded.bytes = w.bytes := by
  intro old d inputs w path written
  have hkept : (save d old w.bytes false).2 = .error (.taken old) := by decide +kernel
  have hreplaced : (save d old [] true).2 = .ok old := by decide +kernel
  have hsaved : (save d path w.bytes false).2 = .ok written := by decide +kernel
  have hsize : w.field.size ≠ {} := by decide
  have hnothing : World.ofBytes [] = .error .empty := rfl
  have hread : World.ofBytes w.bytes = .ok (World.install {} w.toLayout).1 := by decide +kernel
  have hname : written.stem? = some "walk".toList := by decide +kernel
  obtain ⟨⟨l, hl, -⟩, _, -, hload⟩ := ((load_saved d old true).1 []).2 old hreplaced
  obtain ⟨⟨l', hl', hkeep'⟩, stem, hstem, hload'⟩ :=
    ((load_saved d path false).1 w.bytes).2 written hsaved
  obtain rfl : stem = "walk".toList := Option.some.inj (hstem.symm.trans hname)
  rw [String.ofList_toList] at hload'
  refine ⟨⟨hkept, ((load_saved d old false).1 w.bytes).1 _ hkept⟩, ⟨hreplaced, ⟨l, hl⟩, ?_⟩, hsaved,
    ⟨l', hl', hkeep' rfl⟩, (hload' _).mpr ⟨_, hread, rfl⟩, hsize,
    (load_saved d path false).2 inputs "corridor" hsize written hsaved⟩
  intro v hv
  obtain ⟨_, hlevel, -⟩ := (hload v).mp hv
  rw [hnothing] at hlevel
  cases hlevel

end MolePuzzle.LevelFile
