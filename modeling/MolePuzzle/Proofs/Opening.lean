import MolePuzzle.Proofs.Loading
import MolePuzzle.Proofs.Printing
import MolePuzzle.Proofs.SaveContents

/-!
# Opened levels

Most requests on the command line begin with a level that is opened, from the catalog or from a
file.  Either way it is a level that has been read from the bytes of a text and put into play, under
some name (`World.Opened`).  The requests that come down to a text print it and leave the disk alone
(`Cli.run_of_reply_text`).
-/

set_option autoImplicit false

namespace MolePuzzle

namespace World

variable {w : World} {bytes : List UInt8}

/-- The layout of a world that is loaded is the one that was read. -/
theorem layout_of_ofBytes (h : ofBytes bytes = .ok w) : Layout.ofBytes bytes = .ok w.toLayout := by
  rw [ofBytes_eq_map, map_eq_ok_iff] at h
  obtain ⟨l, hl, rfl⟩ := h
  exact hl

/-- The world is a level that has been read and put into play, under some name. -/
def Opened (w : World) : Prop :=
  ∃ bytes l name, Layout.ofBytes bytes = .ok l ∧ w = (install {} l).1.named name

theorem opened_of_ofBytes (h : ofBytes bytes = .ok w) (name : String) : (w.named name).Opened := by
  rw [ofBytes_eq_map, map_eq_ok_iff] at h
  obtain ⟨l, hl, rfl⟩ := h
  exact ⟨bytes, l, name, hl, rfl⟩

namespace Opened

/-- A level that is opened has cells, and all entries for them. -/
theorem field (h : w.Opened) : w.field.size.isEmpty = false ∧ w.field.Complete := by
  obtain ⟨bytes, l, name, hbytes, rfl⟩ := h
  have hread : (LevelSource.bytes bytes).layout = .ok l := hbytes
  obtain ⟨s, glyph, hs, rfl⟩ := LevelSource.exists_glyphs hread
  exact ⟨hs, Layout.complete_ofGlyphs s glyph⟩

/-- It has been looked at: it is won if it is solved from the start. -/
theorem won_eq (h : w.Opened) : w.won = w.covered := by
  obtain ⟨_, l, name, -, rfl⟩ := h
  rfl

end Opened

end World

theorem Catalog.opened_of_load {number : Nat} {w : World} (h : load number = .ok w) :
    w.Opened := by
  rw [load] at h
  split at h
  · cases h
  · split at h
    · cases h
    · rename_i hbytes
      cases h
      exact World.opened_of_ofBytes hbytes _

theorem LevelFile.opened_of_load {d : Disk} {path : Path} {w : World} (h : load d path = .ok w) :
    w.Opened := by
  rw [load] at h
  split at h
  · cases h
  · split at h
    · cases h
    · rename_i hbytes
      split at h <;> cases h <;> exact World.opened_of_ofBytes hbytes _

namespace Cli

variable {d : Disk} {source : Source} {w : World}

theorem openLevel_eq_ok_iff :
    openLevel d source = .ok w ↔ openOptional d source = .ok (some w) := by
  rw [openLevel, bind_eq_ok_iff]
  constructor
  · rintro ⟨opened, hopened, hw⟩
    cases opened with
    | none => cases hw
    | some v =>
      cases hw
      exact hopened
  · intro h
    exact ⟨some w, h, rfl⟩

/-- **Every source opens levels that have been read**, with all that reading makes sure of. -/
theorem opened_of_openLevel (h : openLevel d source = .ok w) : w.Opened := by
  rw [openLevel_eq_ok_iff] at h
  cases source with
  | unspecified => cases h
  | catalog number =>
    rw [openOptional, mapError_eq_ok_iff, map_eq_ok_iff] at h
    obtain ⟨_, hload, hw⟩ := h
    exact Catalog.opened_of_load (Option.some.inj hw ▸ hload)
  | file path =>
    rw [openOptional, mapError_eq_ok_iff, map_eq_ok_iff] at h
    obtain ⟨_, hload, hw⟩ := h
    exact LevelFile.opened_of_load (Option.some.inj hw ▸ hload)

/-- A request whose reply is a text prints it, and leaves the disk as it is. -/
theorem run_of_reply_text {r : Request} {settings : Settings} {text : String}
    (hsettings : Settings.load d r.config = .ok settings)
    (hreply : reply d r.action = .ok (.text text)) : r.run d = (.printed text, d) := by
  rw [Request.run_eq, hsettings]
  dsimp only
  rw [hreply]
  exact outcome_print text d

end Cli

end MolePuzzle
