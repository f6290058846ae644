import MolePuzzle.Proofs.Opening
import MolePuzzle.Proofs.ShareCode

/-!
# Sharing a level

The level text of a world has the layout that share codes ask for (`Layout.isGrid_bytes`): the
writer of level text and the check of share codes count rows on their own, but come to the same.  So
every world with cells can be shared, and what is shared is read back and loaded as what was
written.

On the command line this means that a level can be handed over by its code: what is shown of the
code is what is shown of the level (`ShareCode.carries_level`).
-/

set_option autoImplicit false

namespace MolePuzzle

open Text (AllBlank)

/-! ## Level text as rows of bytes -/

/-- Rows that are ended one by one are rows with the end between them, and once more at last. -/
theorem Text.flatMap_concat_eq_intercalate {α : Type} {sep : α} {rows : List (List α)}
    (hne : rows ≠ []) :
    (rows.flatMap fun row ↦ row ++ [sep]) = [sep].intercalate rows ++ [sep] := by
  induction rows with
  | nil => exact absurd rfl hne
  | cons row rest ih =>
    cases rest with
    | nil => simp
    | cons next rest =>
      rw [List.flatMap_cons, ih (List.cons_ne_nil _ _), List.intercalate_cons_cons]
      simp only [List.append_assoc]

namespace Layout

variable {l : Layout}

theorem newline_not_mem_encode_of_mem_chars {row : List Char} (h : row ∈ l.chars) :
    ShareCode.newline ∉ Text.Utf8.encode row := by
  intro hbyte
  have hnewline := (Text.Utf8.mem_encode_iff (c := '\n') (by decide)).mp hbyte
  exact not_mem_of_mem_chars h Glyph.char_ne_newline hnewline

/-- **Level text is a grid of bytes** of the size of the field. -/
theorem isGrid_bytes (h : l.field.size.isEmpty = false) :
    ShareCode.IsGrid l.field.size l.bytes := by
  have hne : l.chars.map Text.Utf8.encode ≠ [] := by
    have hheight := (Size.isEmpty_eq_false_iff.mp h).2
    rw [Ne, List.map_eq_nil_iff, ← List.length_eq_zero_iff, length_chars]
    omega
  refine ⟨l.chars.map Text.Utf8.encode, by rw [List.length_map, length_chars], ?_, .inr ?_⟩
  · rw [List.forall_mem_map]
    exact fun row hrow ↦
      ⟨length_encode_of_mem_chars hrow, newline_not_mem_encode_of_mem_chars hrow⟩
  · rw [bytes_eq_flatMap, Text.flatMap_concat_eq_intercalate hne]
    rfl

end Layout

/-! ## Worlds -/

namespace World

variable {w : World}

/-- The share code of a world. -/
def shareCode (w : World) : ShareCode := ⟨w.field.size, w.bytes⟩

/-- The code of a world with cells is read back, with any white space around it. -/
theorem decode_shareCode (h : w.field.size.isEmpty = false) {before after : List Char}
    (hbefore : AllBlank before) (hafter : AllBlank after) :
    ShareCode.decode (before ++ w.shareCode.encode ++ after) = .ok w.shareCode := by
  have hfits : ShareCode.fits w.field.size w.bytes = true :=
    (ShareCode.fits_iff h).mpr (Layout.isGrid_bytes h)
  rw [ShareCode.decode_append_encode_append hbefore hafter, shareCode, if_neg (by simp [h]),
    if_pos hfits]

end World

/-! ## On the command line -/

namespace Cli

variable {d d' : Disk} {config : Option Path} {source : Source} {w : World}

/-- What is printed of a request for a share code is the code of the level, on a line. -/
theorem exists_of_run_share {printed : String}
    (h : Request.run ⟨config, .share source⟩ d = (.printed printed, d')) :
    ∃ settings w, Settings.load d config = .ok settings ∧ openLevel d source = .ok w ∧
      printed = String.ofList w.shareCode.encode ++ "\n" ∧ d' = d := by
  obtain ⟨settings, given, hsettings, hreply, hgive⟩ := Request.exists_reply_of_run h
  rw [reply, bind_eq_ok_iff] at hreply
  obtain ⟨w, hopen, htext⟩ := hreply
  cases htext
  rw [Reply.give_text, outcome_print] at hgive
  cases hgive
  exact ⟨settings, w, hsettings, hopen, rfl, rfl⟩

/-- **A level can be handed over by its code.**  When the code of a level has been printed, the same
text is shown of the code as of the level, with any white space around the code. -/
theorem run_unshare {printed : String} {code : List Char}
    (h : Request.run ⟨config, .share source⟩ d = (.printed printed, d'))
    (hcode : Text.trim code = Text.trim printed.toList) :
    ∃ shown, Request.run ⟨config, .display source⟩ d' = (.printed shown, d') ∧
      Request.run ⟨config, .unshare code none⟩ d' = (.printed shown, d') := by
  obtain ⟨settings, w, hsettings, hopen, rfl, rfl⟩ := exists_of_run_share h
  obtain ⟨hcells, hcomplete⟩ := (opened_of_openLevel hopen).field
  obtain ⟨loaded, hload, -, hbytes⟩ := World.exists_ofBytes_bytes hcells hcomplete
  have hdecode : ShareCode.decode code = .ok w.shareCode := by
    have hend : AllBlank ['\n'] := by decide
    have hline : (String.ofList w.shareCode.encode ++ "\n").toList =
        w.shareCode.encode ++ ['\n'] := by
      simp
    rw [ShareCode.decode_congr hcode, hline]
    exact w.decode_shareCode hcells (List.forall_mem_nil _) hend
  refine ⟨levelText w, run_of_reply_text hsettings ?_, run_of_reply_text hsettings ?_⟩
  · rw [reply, hopen]
    rfl
  · have hshown : levelText loaded = levelText w :=
      congrArg String.ofList (Text.Utf8.encode_inj.mp hbytes)
    rw [reply, bind_eq_ok_iff]
    refine ⟨w.shareCode, mapError_eq_ok_iff.mpr hdecode, ?_⟩
    rw [bind_eq_ok_iff, ← hshown]
    exact ⟨loaded, mapError_eq_ok_iff.mpr hload, rfl⟩

end Cli

/-! ## Handing over a level -/

namespace ShareCode

open Cli (Request)

/-- **Share codes carry any level.**

* What is written for a size and bytes is read back if the size is not empty and the bytes are laid
  out as it says; otherwise it is refused, for the size or for the bytes.
* After any commands and levels that have given the field a size, the code of the world is read
  back, with any white space around it, and loading its bytes gives a world of the same size and the
  same level text.
* On the command line, what is shown of a code that has been printed is what is shown of the
  level. -/
theorem carries_level :
    (∀ s : ShareCode,
      (1 ≤ s.size.width.toNat → 1 ≤ s.size.height.toNat →
        (IsGrid s.size s.bytes → decode s.encode = .ok s) ∧
        (¬ IsGrid s.size s.bytes → decode s.encode = .error (.dimensionMismatch s.size))) ∧
      (s.size.width = 0 ∨ s.size.height = 0 →
        decode s.encode = .error (.invalidDimensions s.size.text))) ∧
    (∀ inputs,
      let w := (World.run {} inputs).1
      w.field.size ≠ {} → ∀ before after, AllBlank before → AllBlank after →
        decode (before ++ encode ⟨w.field.size, w.bytes⟩ ++ after) = .ok ⟨w.field.size, w.bytes⟩ ∧
          ∃ loaded, World.ofBytes w.bytes = .ok loaded ∧ loaded.field.size = w.field.size ∧
            loaded.bytes = w.bytes) ∧
    ∀ d d' config source printed code,
      Request.run ⟨config, .share source⟩ d = (.printed printed, d') →
      Text.trim code = Text.trim printed.toList →
      ∃ shown, Request.run ⟨config, .display source⟩ d' = (.printed shown, d') ∧
        Request.run ⟨config, .unshare code none⟩ d' = (.printed shown, d') := by
  refine ⟨fun s ↦ ⟨fun hwidth hheight ↦ ?_, fun hempty ↦ ?_⟩, ?_, ?_⟩
  · have hsize := Size.isEmpty_eq_false_iff.mpr ⟨hwidth, hheight⟩
    rw [decode_encode, if_neg (by simp [hsize]), ← fits_iff hsize]
    exact ⟨fun hfits ↦ if_pos hfits, fun hfits ↦ if_neg hfits⟩
  · have hsize : s.size.isEmpty = true := by simpa [Size.isEmpty] using hempty
    rw [decode_encode, if_pos hsize]
  · intro inputs w hsize before after hbefore hafter
    have hcharted : w.Charted := World.charted_run inputs
    have hcells : w.field.size.isEmpty = false := hcharted.size.resolve_left hsize
    exact ⟨World.decode_shareCode hcells hbefore hafter,
      World.exists_ofBytes_bytes hcells hcharted.complete⟩
  · intro d d' config source printed code
    exact Cli.run_unshare

/-- A mole on floor fits its size and no other, a box beside a wall is handed over, and so is the
first level of the catalog. -/
theorem carries_level_corridor :
    let mole : List UInt8 := [77, 70]
    let inputs : List Input := [.load (.rows [['M', 'F'], ['W']]), .command (.setBox ⟨0, 1⟩ true)]
    let w := (World.run {} inputs).1
    (1 ≤ (2 : UInt32).toNat ∧ 1 ≤ (1 : UInt32).toNat ∧ IsGrid ⟨2, 1⟩ mole ∧
        decode (encode ⟨⟨2, 1⟩, mole⟩) = .ok ⟨⟨2, 1⟩, mole⟩) ∧
      (¬ IsGrid ⟨1, 2⟩ mole ∧
        decode (encode ⟨⟨1, 2⟩, mole⟩) = .error (.dimensionMismatch ⟨1, 2⟩)) ∧
      decode (encode ⟨⟨2, 0⟩, mole⟩) = .error (.invalidDimensions (Size.text ⟨2, 0⟩)) ∧
      (w.field.size ≠ {} ∧ AllBlank [' '] ∧ AllBlank ['\r', '\n'] ∧
        decode ([' '] ++ encode ⟨w.field.size, w.bytes⟩ ++ ['\r', '\n']) =
          .ok ⟨w.field.size, w.bytes⟩ ∧
        ∃ loaded, World.ofBytes w.bytes = .ok loaded ∧ loaded.field.size = w.field.size ∧
          loaded.bytes = w.bytes) ∧
      ∃ printed, Request.run ⟨none, .share (.catalog 1)⟩ {} = (.printed printed, {}) ∧
        ∃ shown, Request.run ⟨none, .display (.catalog 1)⟩ {} = (.printed shown, {}) ∧
          Request.run ⟨none, .unshare printed.toList none⟩ {} = (.printed shown, {}) := by
  intro mole inputs w
  obtain ⟨hcode, hworld, hcli⟩ := carries_level
  have hgrid : IsGrid ⟨2, 1⟩ mole := ⟨[mole], by decide, by decide, .inl rfl⟩
  have hnot : ¬ IsGrid ⟨1, 2⟩ mole := by
    rw [← fits_iff (by decide)]
    decide
  have hsize : w.field.size ≠ {} := by decide
  have hblank : AllBlank [' '] := by decide
  have hend : AllBlank ['\r', '\n'] := by decide
  have hprinted : Request.run ⟨none, .share (.catalog 1)⟩ {} = (.printed _, {}) := rfl
  refine ⟨⟨by decide, by decide, hgrid, ?_⟩, ⟨hnot, ?_⟩, (hcode _).2 (.inr rfl),
    ⟨hsize, hblank, hend, hworld inputs hsize _ _ hblank hend⟩,
    ⟨_, hprinted, hcli _ _ _ _ _ _ hprinted rfl⟩⟩
  · exact ((hcode ⟨⟨2, 1⟩, mole⟩).1 (by decide) (by decide)).1 hgrid
  · exact ((hcode ⟨⟨1, 2⟩, mole⟩).1 (by decide) (by decide)).2 hnot

end ShareCode

end MolePuzzle
