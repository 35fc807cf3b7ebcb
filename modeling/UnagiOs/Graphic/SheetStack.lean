import Mathlib.Data.Fintype.Card
import UnagiOs.Theory.Layers
import UnagiOs.Graphic.SheetDraw

/-!
# The stack of sheets

`Layers ctl l`: the shown sheets are `l`, from bottom to top. The list says
everything about `sheets`, `zTop` and the `z` of the sheets in use.

`sheet_updown` moves one sheet by letting a gap travel through `sheets`. On the
list it is `restack`, as long as the slot past the top is not needed
(`Layers.updown`); the two calls that do need it break the stack
(`Layers.show_inside` and `Layers.move_past_top`).
-/

namespace UnagiOs

/-- `sheet->z` of every sheet. -/
def SHTCTL.pos (ctl : SHTCTL) : SheetId → Int := fun s => (ctl.sheet0 s).z

/-- The shown sheets are `l`, from bottom to top. -/
structure Layers (ctl : SHTCTL) (l : List SheetId) : Prop where
  /-- `zTop` is the top of the list. -/
  top : ctl.zTop + 1 = l.length
  /-- `sheets` is the list, and every sheet of it knows its slot. -/
  slots : Gap ctl.sheets ctl.pos l.length l
  nodup : l.Nodup
  inUse : ∀ s ∈ l, (ctl.sheet0 s).flags = .inUse
  /-- Every other sheet in use is hidden. -/
  hidden : ∀ s, (ctl.sheet0 s).flags = .inUse → s ∉ l → ctl.pos s = -1

variable {ctl ctl' c : SHTCTL} {l rest : List SheetId} {s t : SheetId} {i j k : Nat} {z : Int}

section Fields

variable (ctl s z)

@[simp] theorem setZ_zTop : (ctl.setZ s z).zTop = ctl.zTop := rfl

/-- Setting `z` changes nothing else of a sheet. -/
theorem setZ_sheet0 (t : SheetId) :
    (ctl.setZ s z).sheet0 t = { ctl.sheet0 t with z := (ctl.setZ s z).pos t } := by
  by_cases h : t = s <;> simp [SHTCTL.setZ, SHTCTL.setSheet, SHTCTL.pos, h]

theorem setZ_pos (t : SheetId) : (ctl.setZ s z).pos t = if t = s then z else ctl.pos t := by
  by_cases h : t = s <;> simp [SHTCTL.setZ, SHTCTL.setSheet, SHTCTL.pos, h]

theorem setZ_self : ctl.setZ s (ctl.pos s) = ctl := by
  have hsheet0 : (ctl.setZ s (ctl.pos s)).sheet0 = ctl.sheet0 := by
    funext t
    rw [setZ_sheet0, setZ_pos]
    by_cases h : t = s
    · rw [if_pos h, h]
      rfl
    · rw [if_neg h]
      rfl
  exact congrArg (fun f => { ctl with sheet0 := f }) hsheet0

theorem setZ_flags (t : SheetId) : ((ctl.setZ s z).sheet0 t).flags = (ctl.sheet0 t).flags := by
  rw [setZ_sheet0]

end Fields

/-- Slots are read inside of the array. -/
theorem sheetAt_natCast (h : k < osVgaMaxSheets) : ctl.sheetAt (k : Int) = ctl.sheets k :=
  if_pos ⟨Int.natCast_nonneg k, Int.ofNat_lt.mpr h⟩

theorem sheetAt_eq_some (h : ctl.sheetAt (k : Int) = some s) :
    k < osVgaMaxSheets ∧ ctl.sheets k = some s := by
  by_cases hk : k < osVgaMaxSheets
  · exact ⟨hk, (sheetAt_natCast hk).symm.trans h⟩
  · rw [SHTCTL.sheetAt, if_neg (by omega)] at h
    cases h

theorem storeAt_natCast (h : k < osVgaMaxSheets) :
    ctl.storeAt (k : Int) s = some (ctl.store k s) :=
  if_pos ⟨Int.natCast_nonneg k, Int.ofNat_lt.mpr h⟩

/-- A store that does not get stuck is inside of the array. -/
theorem storeAt_eq_some (h : ctl.storeAt (k : Int) s = some ctl') :
    k < osVgaMaxSheets ∧ ctl' = ctl.store k s := by
  by_cases hk : k < osVgaMaxSheets
  · rw [storeAt_natCast hk] at h
    exact ⟨hk, (Option.some.inj h).symm⟩
  · rw [SHTCTL.storeAt, if_neg (by omega)] at h
    cases h

theorem Drawable.store (h : Drawable ctl) (k : Nat) (s : SheetId) : Drawable (ctl.store k s) :=
  ⟨h.xsize, h.ysize, h.buf⟩

/-- A sheet whose buffer is large enough can be drawn. -/
theorem Drawable.setSheet (h : Drawable ctl) {v : SHEET}
    (hv : v.bufXsize * v.bufYsize ≤ v.buf.size) : Drawable (ctl.setSheet s v) := by
  refine ⟨h.xsize, h.ysize, fun t => ?_⟩
  by_cases hts : t = s
  · simpa [SHTCTL.setSheet, hts] using hv
  · simpa [SHTCTL.setSheet, hts] using h.buf t

theorem Drawable.setZ (h : Drawable ctl) (s : SheetId) (z : Int) : Drawable (ctl.setZ s z) :=
  h.setSheet (h.buf s)

/-! ## The loops -/

/-- What the loops leave alone: everything but the slots up to the top, and `z` of
the sheets that move. -/
structure Shifted (rest : List SheetId) (ctl ctl' : SHTCTL) : Prop where
  other : ctl' = { ctl with sheets := ctl'.sheets, sheet0 := ctl'.sheet0 }
  sheet0 : ∀ s, ctl'.sheet0 s = { ctl.sheet0 s with z := ctl'.pos s }
  pos : ∀ s ∉ rest, ctl'.pos s = ctl.pos s
  above : ∀ k, rest.length < k → ctl'.sheets k = ctl.sheets k

namespace Shifted

theorem refl (rest : List SheetId) (ctl : SHTCTL) : Shifted rest ctl ctl :=
  ⟨rfl, fun _ => rfl, fun _ _ => rfl, fun _ _ => rfl⟩

/-- One loop after the other. -/
theorem trans (h : Shifted rest ctl c) (h' : Shifted rest c ctl') : Shifted rest ctl ctl' := by
  refine ⟨?_, fun s => ?_, fun s hs => (h'.pos s hs).trans (h.pos s hs),
    fun k hk => (h'.above k hk).trans (h.above k hk)⟩
  · rw [h'.other, h.other]
  · rw [h'.sheet0, h.sheet0]

theorem zTop (h : Shifted rest ctl ctl') : ctl'.zTop = ctl.zTop := by
  rw [h.other]

theorem flags (h : Shifted rest ctl ctl') (s : SheetId) :
    (ctl'.sheet0 s).flags = (ctl.sheet0 s).flags := by
  rw [h.sheet0]

theorem drawable (h : Shifted rest ctl ctl') (hd : Drawable ctl) : Drawable ctl' := by
  refine ⟨?_, ?_, fun s => ?_⟩
  · rw [h.other]
    exact hd.xsize
  · rw [h.other]
    exact hd.ysize
  · rw [h.sheet0]
    exact hd.buf s

end Shifted

/-- The order of the sheets aside, `c` is `ctl`: the same pixels on the same screen. -/
structure SamePicture (ctl c : SHTCTL) : Prop where
  xsize : c.xsize = ctl.xsize
  ysize : c.ysize = ctl.ysize
  zMap : c.zMap = ctl.zMap
  vram : c.vram = ctl.vram
  sheet0 : ∀ s, c.sheet0 s = { ctl.sheet0 s with z := c.pos s }

theorem SamePicture.drawable (h : SamePicture ctl c) (hd : Drawable ctl) : Drawable c := by
  refine ⟨h.xsize ▸ hd.xsize, h.ysize ▸ hd.ysize, fun s => ?_⟩
  rw [h.sheet0]
  exact hd.buf s

/-- Setting `z` and moving the other sheets keeps the picture. -/
theorem Shifted.samePicture (h : Shifted rest (ctl.setZ s z) c) : SamePicture ctl c := by
  refine ⟨?_, ?_, ?_, ?_, fun t => ?_⟩
  · rw [h.other]
    rfl
  · rw [h.other]
    rfl
  · rw [h.other]
    rfl
  · rw [h.other]
    rfl
  · rw [h.sheet0, setZ_sheet0]

/-- The state after `sheets[k] = s; s->z = k;`. -/
def SHTCTL.pulled (ctl : SHTCTL) (k : Nat) (s : SheetId) : SHTCTL :=
  (ctl.store k s).setZ s k

/-- A round of either loop, if there is a sheet in the slot that it reads. -/
theorem pull_eq {zSrc : Int} (hsrc : ctl.sheetAt zSrc = some s) (hk : k < osVgaMaxSheets) :
    ctl.pull k zSrc = some (ctl.pulled k s) := by
  simp only [SHTCTL.pull, hsrc, storeAt_natCast hk, Option.bind_eq_bind, Option.bind_some]
  rfl

/-- A round that does not get stuck has found a sheet. -/
theorem exists_of_pull {zSrc : Int} (hk : k < osVgaMaxSheets)
    (h : ctl.pull k zSrc = some ctl') :
    ∃ s, ctl.sheetAt zSrc = some s ∧ ctl' = ctl.pulled k s := by
  cases hsrc : ctl.sheetAt zSrc with
  | none =>
    rw [SHTCTL.pull, hsrc] at h
    cases h
  | some s =>
    rw [pull_eq hsrc hk] at h
    exact ⟨s, rfl, (Option.some.inj h).symm⟩

theorem pulled_pos : (ctl.pulled k s).pos = fun t => if t = s then (k : Int) else ctl.pos t :=
  funext fun t => setZ_pos _ s k t

theorem pulled_pos_self : (ctl.pulled k s).pos s = k :=
  (congrFun pulled_pos s).trans (if_pos rfl)

theorem pulled_pos_ne (h : t ≠ s) : (ctl.pulled k s).pos t = ctl.pos t :=
  (congrFun pulled_pos t).trans (if_neg h)

theorem pulled_flags : ((ctl.pulled k s).sheet0 t).flags = (ctl.sheet0 t).flags :=
  setZ_flags _ s k t

/-- A round only moves one of the sheets that may move. -/
theorem Shifted.pulled (hs : s ∈ rest) (hk : k ≤ rest.length) :
    Shifted rest ctl (ctl.pulled k s) := by
  refine ⟨rfl, fun t => setZ_sheet0 _ s k t, fun t ht => ?_, fun m hm => ?_⟩
  · exact pulled_pos_ne fun hts => ht (hts ▸ hs)
  · exact if_neg (by omega)

theorem moveDown_self : ctl.moveDown z z = some ctl := by
  rw [SHTCTL.moveDown, range_eq_nil (Int.le_refl z)]
  rfl

/-- The loop that moves the sheets down, with its last round apart. -/
theorem moveDown_succ {zEnd : Int} (h : z ≤ zEnd) :
    ctl.moveDown z (zEnd + 1) = (ctl.moveDown z zEnd).bind fun c => c.pull zEnd (zEnd + 1) := by
  simp [SHTCTL.moveDown, range_succ_right h, List.foldlM_append]

theorem moveUp_of_le {zEnd : Int} (h : z ≤ zEnd) : ctl.moveUp z zEnd = some ctl := by
  rw [SHTCTL.moveUp, range_eq_nil (by omega)]
  rfl

/-- The loop that moves the sheets up, with its first round apart. -/
theorem moveUp_succ {zEnd : Int} (h : zEnd ≤ z) :
    ctl.moveUp (z + 1) zEnd = (ctl.pull (z + 1) z).bind fun c => c.moveUp z zEnd := by
  simp [SHTCTL.moveUp, range_succ_right (Int.add_le_add_right h 1)]

section Loops

variable (hnd : rest.Nodup) (hlen : rest.length < osVgaMaxSheets)

include hnd hlen

/-- The gap goes up from slot `i` to slot `j`. -/
theorem moveDown_gap (h : Gap ctl.sheets ctl.pos i rest) (hij : i ≤ j) (hj : j ≤ rest.length) :
    ∃ ctl', ctl.moveDown i j = some ctl' ∧ Gap ctl'.sheets ctl'.pos j rest ∧
      Shifted rest ctl ctl' := by
  induction j, hij using Nat.le_induction with
  | base => exact ⟨ctl, moveDown_self, h, Shifted.refl rest ctl⟩
  | succ j hij ih =>
    obtain ⟨c, hc, hgap, hsh⟩ := ih (Nat.le_of_succ_le hj)
    -- the sheet right above the gap is pulled into it
    have hx : rest[j]? = some rest[j] := List.getElem?_eq_getElem hj
    have hsrc : c.sheetAt (j + 1 : Nat) = some rest[j] := by
      rw [← (hgap _ _ hx).1, skip_of_le (Nat.le_refl _), sheetAt_natCast (by omega)]
    refine ⟨c.pulled j rest[j], ?_, ?_, hsh.trans (Shifted.pulled (List.getElem_mem _) (by omega))⟩
    · rw [Int.natCast_succ, moveDown_succ (Int.ofNat_le.mpr hij), hc, Option.bind_some]
      exact pull_eq hsrc (by omega)
    · rw [pulled_pos]
      exact hgap.up hnd hx

/-- The gap goes down from slot `i` to slot `j`. -/
theorem moveUp_gap (h : Gap ctl.sheets ctl.pos i rest) (hji : j ≤ i) (hi : i ≤ rest.length) :
    ∃ ctl', ctl.moveUp i j = some ctl' ∧ Gap ctl'.sheets ctl'.pos j rest ∧
      Shifted rest ctl ctl' := by
  induction i, hji using Nat.le_induction generalizing ctl with
  | base => exact ⟨ctl, moveUp_of_le (Int.le_refl _), h, Shifted.refl rest ctl⟩
  | succ i hji ih =>
    -- the sheet right below the gap is pulled into it
    have hx : rest[i]? = some rest[i] := List.getElem?_eq_getElem hi
    have hsrc : ctl.sheetAt i = some rest[i] := by
      rw [← (h _ _ hx).1, skip_of_lt (Nat.lt_succ_self i), sheetAt_natCast (by omega)]
    have hgap : Gap (ctl.pulled (i + 1) rest[i]).sheets (ctl.pulled (i + 1) rest[i]).pos i
        rest := by
      rw [pulled_pos]
      exact h.down hnd hx
    obtain ⟨c, hc, hgap', hsh⟩ := ih hgap (by omega)
    refine ⟨c, ?_, hgap', (Shifted.pulled (List.getElem_mem _) (by omega)).trans hsh⟩
    rw [Int.natCast_succ, moveUp_succ (Int.ofNat_le.mpr hji), ← Int.natCast_succ,
      pull_eq hsrc (by omega)]
    exact hc

end Loops

/-! ## The list -/

namespace Layers

variable {zStart zEnd : Int} (h : Layers ctl l)
include h

theorem length_le : l.length ≤ osVgaMaxSheets := by
  -- there are as many sheets as slots, and none is shown twice
  simpa using h.nodup.length_le_card

/-- The slots of the shown sheets are not empty. -/
theorem exists_sheetAt (hz : 0 ≤ z) (hz' : z ≤ ctl.zTop) : ∃ s, ctl.sheetAt z = some s := by
  obtain ⟨k, rfl⟩ := Int.eq_ofNat_of_zero_le hz
  have htop := h.top
  have hk : k < l.length := by omega
  have hslots := (Gap.full_iff (Nat.le_refl _)).mp h.slots k l[k] (List.getElem?_eq_getElem hk)
  exact ⟨l[k], by rw [sheetAt_natCast (Nat.lt_of_lt_of_le hk h.length_le), hslots.1]⟩

/-- A shown sheet knows its slot. -/
theorem pos_eq (hi : l[i]? = some s) : ctl.pos s = i :=
  ((Gap.full_iff (Nat.le_refl _)).mp h.slots i s hi).2

/-- The sheets in use are shown iff their `z` is not negative. -/
theorem mem_iff (hu : (ctl.sheet0 s).flags = .inUse) : s ∈ l ↔ 0 ≤ ctl.pos s := by
  constructor
  · intro hs
    obtain ⟨i, hi⟩ := List.getElem?_of_mem hs
    exact h.pos_eq hi ▸ Int.natCast_nonneg i
  · intro hpos
    by_contra hs
    rw [h.hidden s hu hs] at hpos
    exact absurd hpos (by decide)

/-- The `z` of a sheet in use is below the height of the stack. -/
theorem pos_lt (hu : (ctl.sheet0 s).flags = .inUse) : ctl.pos s < l.length := by
  by_cases hs : s ∈ l
  · obtain ⟨i, hi⟩ := List.getElem?_of_mem hs
    rw [h.pos_eq hi]
    exact Int.ofNat_lt.mpr (List.getElem?_eq_some_iff.mp hi).1
  · rw [h.hidden s hu hs]
    omega

/-- What does not touch the slots, `z` or the flags keeps the stack. -/
theorem congr (hsheets : ctl'.sheets = ctl.sheets) (hzTop : ctl'.zTop = ctl.zTop)
    (hpos : ctl'.pos = ctl.pos) (hflags : ∀ t, (ctl'.sheet0 t).flags = (ctl.sheet0 t).flags) :
    Layers ctl' l := by
  refine ⟨hzTop ▸ h.top, ?_, h.nodup, fun t ht => (hflags t).trans (h.inUse t ht), fun t ht => ?_⟩
  · rw [hsheets, hpos]
    exact h.slots
  · rw [hpos]
    exact h.hidden t ((hflags t).symm.trans ht)

/-- `sheet_update_zmap` keeps the stack. -/
theorem updateZmap (hd : Drawable ctl) (r : Rect) (hstart : 0 ≤ zStart) :
    ∃ ctl', sheetUpdateZmap ctl r zStart = some ctl' ∧ Layers ctl' l ∧ Drawable ctl' := by
  obtain ⟨m, heq⟩ := hd.updateZmap r fun z hz => h.exists_sheetAt (Int.le_trans hstart hz)
  exact ⟨_, heq, h.congr rfl rfl rfl fun _ => rfl, ⟨hd.xsize, hd.ysize, hd.buf⟩⟩

/-- So does `sheet_update_with_screenxy`, for layers that are there. -/
theorem updateWithScreenxy (hd : Drawable ctl) (r : Rect) (hstart : 0 ≤ zStart)
    (hend : zEnd < l.length) :
    ∃ ctl', sheetUpdateWithScreenxy ctl r zStart zEnd = some ctl' ∧ Layers ctl' l ∧
      Drawable ctl' := by
  have htop := h.top
  obtain ⟨v, heq⟩ := hd.updateWithScreenxy r fun z hz (hz' : z ≤ ctl.zTop ∨ z ≤ zEnd) =>
    h.exists_sheetAt (Int.le_trans hstart hz) (by omega)
  exact ⟨_, heq, h.congr rfl rfl rfl fun _ => rfl, ⟨hd.xsize, hd.ysize, hd.buf⟩⟩

/-- Redrawing keeps the stack. -/
theorem refresh (hd : Drawable ctl) (r : Rect) (hstart : 0 ≤ zStart) (hend : zEnd < l.length) :
    ∃ ctl', ctl.refresh r zStart zEnd = some ctl' ∧ Layers ctl' l ∧ Drawable ctl' := by
  obtain ⟨c, hc, h', hd'⟩ := h.updateZmap hd r hstart
  rw [SHTCTL.refresh, hc]
  exact h'.updateWithScreenxy hd' r hstart hend

/-- What is left to show once the slots are right. -/
theorem restacked (hu : (ctl.sheet0 s).flags = .inUse)
    (hflags : ∀ t, (ctl'.sheet0 t).flags = (ctl.sheet0 t).flags)
    (hpos : ∀ t ∉ l, t ≠ s → ctl'.pos t = ctl.pos t) (hhide : z < 0 → ctl'.pos s = -1)
    (htop : ctl'.zTop + 1 = (restack l s z).length)
    (hgap : Gap ctl'.sheets ctl'.pos (restack l s z).length (restack l s z)) :
    Layers ctl' (restack l s z) := by
  refine ⟨htop, hgap, nodup_restack h.nodup s z, fun t ht => ?_, fun t ht hmem => ?_⟩
  · rw [hflags]
    rcases mem_restack.mp ht with ⟨-, rfl⟩ | hmem
    · exact hu
    · exact h.inUse t (List.mem_of_mem_erase hmem)
  · rw [hflags] at ht
    rw [mem_restack, not_or] at hmem
    -- a sheet that is not in the new stack is the one that is hidden, or was hidden before
    by_cases hts : t = s
    · subst hts
      exact hhide (Int.not_le.mp fun hz => hmem.1 ⟨hz, rfl⟩)
    · have htl : t ∉ l := fun hl => hmem.2 ((List.mem_erase_of_ne hts).mpr hl)
      rw [hpos t htl hts, h.hidden t ht htl]

end Layers

end UnagiOs
