import Mathlib.Logic.Function.Basic
import MolePuzzle.Proofs.CanonicalText
import MolePuzzle.Proofs.WellFormed

/-!
# What a click changes in level text

Level text has one byte for each cell, at a place that is known from the size of the field
(`Size.place`).  A click on a cell puts the letter of its tool at the place of that cell.  There are
two exceptions: painting floor under the mole leaves the letter of the mole, and where a mole is
taken away because it is set elsewhere, the letter of the target or of the floor under it comes to
light.

`World.glyphAt_painted_self` and `World.glyphAt_painted_of_ne` say this of the glyphs, and
`World.bytes_act_click` of the bytes.  What carries it over is `Layout.bytesOf_eq_set`: text that
differs in the glyph of one cell differs in one byte.
-/

set_option autoImplicit false

namespace MolePuzzle

/-! ## The places of level text -/

/-- Two maps of a list that agree but for one place. -/
theorem map_eq_set_map {α β : Type} {f g : α → β} {as : List α} {i : Nat} {a : α}
    (hi : as[i]? = some a) (hne : ∀ j b, as[j]? = some b → j ≠ i → g b = f b) :
    as.map g = (as.map f).set i (g a) := by
  refine List.ext_getElem? fun j ↦ ?_
  rw [List.getElem?_map, List.getElem?_set, List.length_map, List.getElem?_map]
  by_cases hj : i = j
  · subst hj
    obtain ⟨hlt, -⟩ := List.getElem?_eq_some_iff.mp hi
    rw [if_pos rfl, if_pos hlt, hi, Option.map_some]
  · rw [if_neg hj]
    cases hb : as[j]? with
    | none => rfl
    | some b => rw [Option.map_some, Option.map_some, hne j b hb (Ne.symm hj)]

namespace Size

/-- The place of a cell in level text, where a line end follows each row. -/
def place (s : Size) (c : Coord) : Nat := c.row.toNat * (s.width.toNat + 1) + c.column.toNat

/-- What stands at a place of level text: a cell, or a line end. -/
def spotAt (s : Size) (i : Nat) : Option Coord :=
  if i % (s.width.toNat + 1) = s.width.toNat then none
  else some ⟨UInt32.ofNat (i % (s.width.toNat + 1)), UInt32.ofNat (i / (s.width.toNat + 1))⟩

/-- In each row the cells come first, and then the line end. -/
theorem spotAt_mul_add (s : Size) (row : Nat) {column : Nat} (h : column < s.width.toNat + 1) :
    s.spotAt ((s.width.toNat + 1) * row + column) = if column = s.width.toNat then none
      else some ⟨UInt32.ofNat column, UInt32.ofNat row⟩ := by
  rw [spotAt, Nat.mul_add_mod, Nat.mod_eq_of_lt h, Nat.mul_add_div (by omega),
    Nat.div_eq_of_lt h, Nat.add_zero]

theorem spots_eq_map_range (s : Size) :
    s.spots = (List.range ((s.width.toNat + 1) * s.height.toNat)).map s.spotAt := by
  rw [range_mul, List.map_flatMap, spots]
  refine List.flatMap_congr fun row _ ↦ ?_
  rw [List.map_map, List.range_succ, List.map_append, List.map_singleton, Function.comp_apply,
    spotAt_mul_add s row (Nat.lt_succ_self _), if_pos rfl]
  refine congrArg (· ++ [none]) (List.map_congr_left fun column hcolumn ↦ ?_)
  rw [List.mem_range] at hcolumn
  rw [Function.comp_apply, spotAt_mul_add s row (Nat.lt_succ_of_lt hcolumn),
    if_neg (Nat.ne_of_lt hcolumn)]

variable {s : Size} {c : Coord}

theorem place_lt (hc : c ∈ s) : s.place c < (s.width.toNat + 1) * s.height.toNat := by
  obtain ⟨hcolumn, hrow⟩ := hc
  rw [UInt32.lt_iff_toNat_lt] at hcolumn hrow
  calc s.place c < (c.row.toNat + 1) * (s.width.toNat + 1) := by
        rw [place, Nat.add_mul, Nat.one_mul]
        omega
    _ ≤ s.height.toNat * (s.width.toNat + 1) := Nat.mul_le_mul_right _ hrow
    _ = (s.width.toNat + 1) * s.height.toNat := Nat.mul_comm _ _

theorem spotAt_place (hc : c ∈ s) : s.spotAt (s.place c) = some c := by
  have hcolumn : c.column.toNat < s.width.toNat := UInt32.lt_iff_toNat_lt.mp hc.1
  rw [place, Nat.mul_comm, spotAt_mul_add s _ (Nat.lt_succ_of_lt hcolumn),
    if_neg (Nat.ne_of_lt hcolumn), UInt32.ofNat_toNat, UInt32.ofNat_toNat]

/-- A cell is found at its place only. -/
theorem eq_place_of_spotAt {i : Nat} (hi : i < (s.width.toNat + 1) * s.height.toNat)
    (h : s.spotAt i = some c) : i = s.place c := by
  have hdiv := Nat.div_add_mod i (s.width.toNat + 1)
  have hmod : i % (s.width.toNat + 1) < s.width.toNat + 1 := Nat.mod_lt i (Nat.succ_pos _)
  have hrow : i / (s.width.toNat + 1) < s.height.toNat := Nat.div_lt_of_lt_mul hi
  rw [spotAt] at h
  split at h
  · cases h
  · cases h
    have hwidth := s.width.toNat_lt
    have hheight := s.height.toNat_lt
    rw [place, UInt32.toNat_ofNat_of_lt' (by simp only [UInt32.size]; omega),
      UInt32.toNat_ofNat_of_lt' (by simp only [UInt32.size]; omega), Nat.mul_comm, hdiv]

theorem getElem?_spots_eq_some_iff (hc : c ∈ s) {i : Nat} :
    s.spots[i]? = some (some c) ↔ i = s.place c := by
  rw [spots_eq_map_range, List.getElem?_map, Option.map_eq_some_iff]
  constructor
  · rintro ⟨_, hj, h⟩
    obtain ⟨hi, rfl⟩ := List.getElem?_eq_some_iff.mp hj
    rw [List.length_range] at hi
    rw [List.getElem_range] at h
    exact eq_place_of_spotAt hi h
  · rintro rfl
    exact ⟨_, List.getElem?_range (place_lt hc), spotAt_place hc⟩

end Size

/-! ## One glyph, one byte -/

/-- The byte of a glyph in level text. -/
def Glyph.byte (g : Glyph) : UInt8 := UInt8.ofNat g.char.toNat

namespace Layout

variable {s : Size} {glyph glyph' : Coord → Glyph} {c : Coord}

/-- The bytes of level text that has the given glyphs on the cells of a size. -/
def bytesOf (s : Size) (glyph : Coord → Glyph) : List UInt8 :=
  Text.Utf8.encode (s.spots.map (charAt glyph))

theorem bytes_eq_bytesOf (l : Layout) : l.bytes = bytesOf l.field.size l.glyphAt := by
  rw [bytes, text_eq_map_spots, bytesOf]

/-- The byte at a spot: that of the glyph, or the line end. -/
def byteAt (glyph : Coord → Glyph) (spot : Option Coord) : UInt8 :=
  spot.elim 10 fun c ↦ (glyph c).byte

theorem bytesOf_eq_map (s : Size) (glyph : Coord → Glyph) :
    bytesOf s glyph = s.spots.map (byteAt glyph) := by
  have hbyte : ∀ spot, String.utf8EncodeChar (charAt glyph spot) = [byteAt glyph spot] := by
    intro spot
    cases spot with
    | none => rfl
    | some c =>
      refine Text.Utf8.encodeChar_of_lt ?_
      show (glyph c).char.toNat < 128
      cases glyph c <;> decide
  rw [bytesOf, Text.Utf8.encode, List.flatMap_map]
  simp only [hbyte]
  exact List.flatMap_pure_eq_map _ _

/-- The byte of a cell is found at its place. -/
theorem getElem?_bytes_place {l : Layout} (hc : c ∈ l.field.size) :
    l.bytes[l.field.size.place c]? = some (l.glyphAt c).byte := by
  rw [bytes_eq_bytesOf, bytesOf_eq_map, List.getElem?_map,
    (Size.getElem?_spots_eq_some_iff hc).mpr rfl, Option.map_some, byteAt, Option.elim_some]

/-- **Text that differs in the glyph of one cell differs in one byte.** -/
theorem bytesOf_eq_set (hc : c ∈ s) (hne : ∀ e, e ≠ c → glyph' e = glyph e) :
    bytesOf s glyph' = (bytesOf s glyph).set (s.place c) (glyph' c).byte := by
  rw [bytesOf_eq_map, bytesOf_eq_map]
  have hplace : s.spots[s.place c]? = some (some c) :=
    (Size.getElem?_spots_eq_some_iff hc).mpr rfl
  refine map_eq_set_map hplace fun j spot hspot hj ↦ ?_
  cases spot with
  | none => rfl
  | some e =>
    refine congrArg Glyph.byte (hne e ?_)
    rintro rfl
    exact hj ((Size.getElem?_spots_eq_some_iff hc).mp hspot)

end Layout

/-! ## The glyphs of a painted world -/

namespace Tool

/-- The glyph that a tool paints. -/
def glyph : Tool → Glyph
  | mole => .mole
  | placedBox => .placedBox
  | looseBox => .looseBox
  | target => .target
  | wall => .wall
  | floor => .floor
  | eraser => .outside

end Tool

namespace World

variable {w : World} {tool : Tool} {cell c : Coord}

/-- **The painted cell gets the glyph of the tool**, unless floor is painted under the mole. -/
theorem glyphAt_painted_self (hcomplete : w.field.Complete) (hcell : cell ∈ w.field.size) :
    (w.painted tool cell).glyphAt cell =
      if tool = .floor ∧ w.actors.mole = some cell then .mole else tool.glyph := by
  have hat : (w.painted tool cell).field.at? cell = some tool.terrain := by
    rw [at?_painted hcomplete hcell, if_pos rfl]
  rw [Layout.glyphAt, hat, hasBox_painted_self, contains_targets_painted_self, mole_painted]
  by_cases hstood : w.actors.mole = some cell <;> cases tool <;>
    simp [Tool.terrain, Tool.hasBox, Tool.hasTarget, Tool.moleAfter, Tool.glyph, hstood]

/-- **No other cell gets another glyph**, unless the mole is taken from it. -/
theorem glyphAt_painted_of_ne (h : w.Ordered) (hcell : cell ∈ w.field.size) (hc : c ≠ cell) :
    (w.painted tool cell).glyphAt c =
      if tool = .mole ∧ w.actors.mole = some c then
        if c ∈ w.targets then .target else .floor
      else w.glyphAt c := by
  have hat : (w.painted tool cell).field.at? c = w.field.at? c := by
    rw [at?_painted h.surveyed.complete hcell, if_neg hc]
  have hmole : (w.painted tool cell).actors.mole = some c ↔
      tool ≠ .mole ∧ w.actors.mole = some c := by
    rw [mole_painted, Tool.moleAfter_eq_some_iff, if_neg hc]
  have hbox : c ∈ (w.painted tool cell).actors.boxes ↔ c ∈ w.actors.boxes := by
    rw [actors_painted, mem_withCell, if_neg hc]
  have htarget : c ∈ (w.painted tool cell).targets ↔ c ∈ w.targets := by
    rw [targets_painted, mem_withCell, if_neg hc]
  split
  · rename_i hmoved
    obtain ⟨htool, hstood⟩ := hmoved
    -- The mole stood on floor without a box, so that is what is left.
    have hfloor : (w.painted tool cell).field.IsFloor c :=
      hat.trans (h.lawful.placed.mole_walkable c hstood)
    have hfree : c ∉ w.actors.boxes := h.lawful.placed.mole_free c hstood
    rw [Layout.glyphAt_of_isFloor hfloor, if_neg fun hstays ↦ (hmole.mp hstays).1 htool,
      if_neg (mt hbox.mp hfree)]
    exact if_congr htarget rfl rfl
  · rename_i hstays
    refine Layout.glyphAt_congr hat ?_ hbox htarget
    rw [hmole, and_iff_right_iff_imp]
    exact fun hstood htool ↦ hstays ⟨htool, hstood⟩

/-! ## The bytes of a painted world -/

/-- Painting a cell changes the byte of the cell, if no mole is taken from another one. -/
theorem bytes_painted (h : w.Ordered) (hcell : cell ∈ w.field.size)
    (hstays : tool = .mole → ∀ old, w.actors.mole = some old → old = cell) :
    (w.painted tool cell).bytes = w.bytes.set (w.field.size.place cell)
      (if tool = .floor ∧ w.actors.mole = some cell then Glyph.mole else tool.glyph).byte := by
  rw [← glyphAt_painted_self h.surveyed.complete hcell, Layout.bytes_eq_bytesOf,
    Layout.bytes_eq_bytesOf, size_painted]
  refine Layout.bytesOf_eq_set hcell fun e he ↦ ?_
  rw [glyphAt_painted_of_ne h hcell he, if_neg]
  exact fun hmoved ↦ he (hstays hmoved.1 e hmoved.2)

/-- Setting the mole elsewhere changes one more byte. -/
theorem bytes_painted_mole (h : w.Ordered) (hcell : cell ∈ w.field.size) {old : Coord}
    (hold : w.actors.mole = some old) (hne : old ≠ cell) :
    (w.painted .mole cell).bytes = (w.bytes.set (w.field.size.place cell) Glyph.mole.byte).set
      (w.field.size.place old) (if old ∈ w.targets then Glyph.target else .floor).byte := by
  have holdin : old ∈ w.field.size :=
    Field.mem_size_of_at? (h.lawful.placed.mole_walkable old hold)
  have hself : (w.painted .mole cell).glyphAt cell = .mole :=
    (glyphAt_painted_self h.surveyed.complete hcell).trans (if_neg (by simp))
  have hleft : (w.painted .mole cell).glyphAt old =
      if old ∈ w.targets then Glyph.target else .floor :=
    (glyphAt_painted_of_ne h hcell hne).trans (if_pos ⟨rfl, hold⟩)
  -- On the way, the mole is on both cells.
  have hboth : Layout.bytesOf w.field.size (Function.update w.glyphAt cell .mole) =
      w.bytes.set (w.field.size.place cell) Glyph.mole.byte := by
    have hother : ∀ e, e ≠ cell → Function.update w.glyphAt cell .mole e = w.glyphAt e :=
      fun e he ↦ Function.update_of_ne he _ _
    rw [Layout.bytes_eq_bytesOf, Layout.bytesOf_eq_set hcell hother, Function.update_self]
  rw [← hboth, ← hleft, Layout.bytes_eq_bytesOf, size_painted]
  refine Layout.bytesOf_eq_set holdin fun e he ↦ ?_
  by_cases hcelle : e = cell
  · rw [hcelle, hself, Function.update_self]
  · rw [Function.update_of_ne hcelle, glyphAt_painted_of_ne h hcell hcelle, if_neg]
    exact fun hmoved ↦ he (Option.some.inj (hmoved.2.symm.trans hold))

/-- **A click repaints one cell of the level text.**  After any drive over fields whose cells words
can number, a click is not told of, and without a cell of the field it changes nothing.  A click on
a cell leaves the size, the name and the counters as they are.  Of the level text it changes the
byte of the cell, to that of the tool or to that of the mole if floor is painted under it; and when
the mole is set while it stands elsewhere, the byte of the cell that it stood on, to that of the
target or of the floor there. -/
theorem bytes_act_click (acts : List Act)
    (hfits : ∀ past ∈ acts.inits, (drive {} past).1.field.size.FitsWord) (e : Editor)
    (click : Click) :
    let w := (drive {} acts).1
    let v := (w.act (.click e click)).1
    let tool := e.toolFor click
    (w.act (.click e click)).2 = [] ∧
      ((∀ cell, click.cell = some cell → cell ∉ w.field.size) → v = w) ∧
      (∀ c ∈ w.field.size, w.bytes[w.field.size.place c]? = some (w.glyphAt c).byte) ∧
      ∀ cell, click.cell = some cell → cell ∈ w.field.size →
        let painted := w.bytes.set (w.field.size.place cell)
          (if tool = .floor ∧ w.actors.mole = some cell then Glyph.mole else tool.glyph).byte
        v.field.size = w.field.size ∧ v.name = w.name ∧ v.steps = w.steps ∧ v.pushes = w.pushes ∧
          ((tool = .mole → ∀ old, w.actors.mole = some old → old = cell) → v.bytes = painted) ∧
          (tool = .mole → ∀ old, w.actors.mole = some old → old ≠ cell →
            v.bytes = painted.set (w.field.size.place old)
              (if old ∈ w.targets then Glyph.target else .floor).byte) := by
  intro w v tool
  have h : w.Ordered := ordered_drive acts hfits
  refine ⟨snd_act_click w e click, fst_act_click_of_not_mem,
    fun _ ↦ Layout.getElem?_bytes_place, fun cell hclick hcell ↦ ?_⟩
  have hv : v = w.painted tool cell := fst_act_click_of_mem hclick hcell
  obtain ⟨hname, hsteps, hpushes⟩ := scorecard_eq_iff.mp (scorecard_act_click w e click)
  refine ⟨by rw [hv, size_painted], hname, hsteps, hpushes, fun hstays ↦ ?_,
    fun htool old hold hne ↦ ?_⟩
  · rw [hv]
    exact bytes_painted h hcell hstays
  · rw [hv, htool, if_neg (by simp)]
    exact bytes_painted_mole h hcell hold hne

/-- The mole has gone onto a target.  It is brought to another cell, the floor under it is painted,
and a click beside the field does nothing. -/
theorem bytes_act_click_target :
    let acts : List Act :=
      [.load (.rows [['M', 'T', 'F'], ['B', 'W', 'A']]), .play (.move .right)]
    let w := (drive {} acts).1
    (∀ past ∈ acts.inits, (drive {} past).1.field.size.FitsWord) ∧
      w.bytes = Text.Utf8.encode "FMF\nBWA\n".toList ∧
      (w.act (.click ⟨.mole⟩ ⟨some ⟨2, 0⟩, false⟩)).1.bytes =
        Text.Utf8.encode "FTM\nBWA\n".toList ∧
      (w.act (.click ⟨.floor⟩ ⟨some ⟨1, 0⟩, false⟩)).1.bytes =
        Text.Utf8.encode "FMF\nBWA\n".toList ∧
      (w.act (.click ⟨.wall⟩ ⟨some ⟨0, 1⟩, true⟩)).1.bytes =
        Text.Utf8.encode "FMF\nEWA\n".toList ∧
      (w.act (.click ⟨.wall⟩ ⟨some ⟨3, 0⟩, false⟩)).1 = w := by
  intro acts w
  have hfits : ∀ past ∈ acts.inits, (drive {} past).1.field.size.FitsWord := by decide
  have hbytes : w.bytes = Text.Utf8.encode "FMF\nBWA\n".toList := by decide
  have hclick := bytes_act_click acts hfits
  obtain ⟨-, -, -, hmole⟩ := hclick ⟨.mole⟩ ⟨some ⟨2, 0⟩, false⟩
  obtain ⟨-, -, -, hfloor⟩ := hclick ⟨.floor⟩ ⟨some ⟨1, 0⟩, false⟩
  obtain ⟨-, -, -, herase⟩ := hclick ⟨.wall⟩ ⟨some ⟨0, 1⟩, true⟩
  obtain ⟨-, hbeside, -⟩ := hclick ⟨.wall⟩ ⟨some ⟨3, 0⟩, false⟩
  obtain ⟨-, -, -, -, -, hmoved⟩ := hmole ⟨2, 0⟩ rfl (by decide)
  obtain ⟨-, -, -, -, hstays, -⟩ := hfloor ⟨1, 0⟩ rfl (by decide)
  obtain ⟨-, -, -, -, herased, -⟩ := herase ⟨0, 1⟩ rfl (by decide)
  refine ⟨hfits, hbytes, ?_, ?_, ?_, hbeside (by decide)⟩
  · rw [hmoved rfl ⟨1, 0⟩ (by decide) (by decide), hbytes]
    decide
  · rw [hstays (by decide), hbytes]
    decide
  · rw [herased (by decide), hbytes]
    decide

end World

end MolePuzzle
