import UnagiOs.Graphic.SheetPixels
import UnagiOs.Graphic.SheetRun

/-!
# What a call does to the picture

`SheetStep` says once, for every call, how `zMap`, `vram` and the stack change. The
calls are those that keep to the stack (`SheetOp.Orderly`): a sheet is moved within it
or shown on top, a new buffer is given to hidden sheets only, and a pixel of a shown
sheet stays transparent or stays opaque.
-/

namespace UnagiOs

/-- The pixel stays transparent or stays opaque. -/
def SHEET.KeepsTransparency (s : SHEET) (i : Nat) (color : UInt8) : Prop :=
  ∀ old ∈ s.buf[i]?,
    ((old.toNat : Int) = s.colorInvisible ↔ (color.toNat : Int) = s.colorInvisible)

instance SHEET.decidableKeepsTransparency (s : SHEET) (i : Nat) (color : UInt8) :
    Decidable (s.KeepsTransparency i color) :=
  inferInstanceAs (Decidable (∀ old ∈ s.buf[i]?, _))

/-- The call keeps to the stack and to the shape of the shown sheets. -/
def SheetOp.Orderly (ctl : SHTCTL) : SheetOp → Prop
  | .setbuf s _ _ _ _ => ctl.pos s < 0
  | .draw s i color => ctl.pos s < 0 ∨ (ctl.sheet0 s).KeepsTransparency i color
  | .updown s zNew => ctl.InRange s zNew
  | _ => True

instance SheetOp.decidableOrderly (ctl : SHTCTL) : ∀ op : SheetOp, Decidable (op.Orderly ctl)
  | .setbuf s _ _ _ _ => inferInstanceAs (Decidable (ctl.pos s < 0))
  | .draw _ _ _ => inferInstanceAs (Decidable (_ ∨ _))
  | .updown s zNew => inferInstanceAs (Decidable (ctl.InRange s zNew))
  | .alloc | .textboxAlloc _ _ _ _ _ _ _ _ | .updateSheet _ _ | .slide _ _ _ | .free _ =>
    .isTrue trivial

/-- `zMap`, `vram` and the pixels of the sheets of the list are the same. -/
structure SameSeen (l : List SheetId) (ctl ctl' : SHTCTL) : Prop where
  xsize : ctl'.xsize = ctl.xsize
  ysize : ctl'.ysize = ctl.ysize
  zMap : ctl'.zMap = ctl.zMap
  vram : ctl'.vram = ctl.vram
  sheet0 : ∀ t ∈ l, ctl'.sheet0 t = { ctl.sheet0 t with
    z := (ctl'.sheet0 t).z, flags := (ctl'.sheet0 t).flags, textbox := (ctl'.sheet0 t).textbox }

/-- A rectangle of the buffer of a sheet, on the screen. -/
def SHTCTL.onScreenRect (ctl : SHTCTL) (s : SheetId) (r : Rect) : Rect where
  xStart := (ctl.sheet0 s).xStart + r.xStart
  yStart := (ctl.sheet0 s).yStart + r.yStart
  xEnd := (ctl.sheet0 s).xStart + r.xEnd
  yEnd := (ctl.sheet0 s).yStart + r.yEnd

/-- What a call does to the picture, with the stack before and after it. -/
inductive SheetStep (ctl : SHTCTL) (l : List SheetId) :
    SheetOp → SHTCTL → List SheetId → Prop
  | still {op : SheetOp} {ctl' : SHTCTL} (hsame : SameSeen l ctl ctl') : SheetStep ctl l op ctl' l
  | draw {s : SheetId} {i : Nat} {color : UInt8} (hs : s ∈ l)
      (hkeep : (ctl.sheet0 s).KeepsTransparency i color) :
      SheetStep ctl l (.draw s i color) (ctl.setSheet s
        { ctl.sheet0 s with buf := (ctl.sheet0 s).buf.setIfInBounds i color }) l
  | update {s : SheetId} {r : Rect} {i : Nat} {v : Nat → UInt8} (hi : l[i]? = some s)
      (hv : ScreenUpdated ctl l (ctl.onScreenRect s r) i i v) :
      SheetStep ctl l (.updateSheet s r) { ctl with vram := v } l
  | restack {s : SheetId} {z : Int} {k : Nat} {zEnd : Int} {c : SHTCTL} {m v : Nat → UInt8}
      (hre : Redraw l s z k zEnd) (hpic : SamePicture ctl c)
      (hm : ZmapUpdated c (restack l s z) (ctl.area s) k m)
      (hv : ScreenUpdated { c with zMap := m } (restack l s z) (ctl.area s) k zEnd v) :
      SheetStep ctl l (.updown s z) { c with zMap := m, vram := v } (restack l s z)
  | slide {s : SheetId} {x y : Int} {i : Nat} {c : SHTCTL} {m₁ m₂ v₁ v₂ : Nat → UInt8}
      (hi : l[i]? = some s)
      (hc : c = ctl.setSheet s { ctl.sheet0 s with xStart := x, yStart := y })
      (hm₁ : ZmapUpdated c l (ctl.area s) 0 m₁)
      (hm₂ : ZmapUpdated { c with zMap := m₁ } l (c.area s) i m₂)
      (hv₁ : ScreenUpdated { c with zMap := m₂ } l (ctl.area s) 0 (i - 1) v₁)
      (hv₂ : ScreenUpdated { c with zMap := m₂, vram := v₁ } l (c.area s) i i v₂) :
      SheetStep ctl l (.slide s x y) { c with zMap := m₂, vram := v₂ } l
  | free {s : SheetId} {i : Nat} {c ctl' : SHTCTL} {m v : Nat → UInt8}
      (hi : l[i]? = some s) (hsame : SameSeen l ctl c)
      (hm : ZmapUpdated c (restack l s (-1)) (ctl.area s) 0 m)
      (hv : ScreenUpdated { c with zMap := m } (restack l s (-1)) (ctl.area s) 0 (i - 1) v)
      (hsame' : SameSeen (restack l s (-1)) { c with zMap := m, vram := v } ctl') :
      SheetStep ctl l (.free s) ctl' (restack l s (-1))

variable {ctl ctl' c : SHTCTL} {l : List SheetId} {s : SheetId} {k : Nat} {op : SheetOp}

namespace SameSeen

theorem refl (l : List SheetId) (ctl : SHTCTL) : SameSeen l ctl ctl :=
  ⟨rfl, rfl, rfl, rfl, fun _ _ => rfl⟩

theorem trans (h : SameSeen l ctl c) (h' : SameSeen l c ctl') : SameSeen l ctl ctl' := by
  refine ⟨h'.xsize.trans h.xsize, h'.ysize.trans h.ysize, h'.zMap.trans h.zMap,
    h'.vram.trans h.vram, fun t ht => ?_⟩
  rw [h'.sheet0 t ht, h.sheet0 t ht]

/-- Assigning to a sheet outside the list. -/
theorem setHidden (hs : s ∉ l) (v : SHEET) : SameSeen l ctl (ctl.setSheet s v) := by
  refine ⟨rfl, rfl, rfl, rfl, fun t ht => ?_⟩
  have hother : (ctl.setSheet s v).sheet0 t = ctl.sheet0 t :=
    if_neg fun (hts : t = s) => hs (hts ▸ ht)
  rw [hother]

/-- Assigning what does not show. -/
theorem setSheet (z : Int) (flags : SheetFlags) (textbox : Option TEXTBOX) :
    SameSeen l ctl (ctl.setSheet s { ctl.sheet0 s with z, flags, textbox }) := by
  refine ⟨rfl, rfl, rfl, rfl, fun t _ => ?_⟩
  by_cases hts : t = s
  · simp [SHTCTL.setSheet, hts]
  · simp [SHTCTL.setSheet, hts]

end SameSeen

theorem SamePicture.sameSeen (h : SamePicture ctl c) (l : List SheetId) : SameSeen l ctl c := by
  refine ⟨h.xsize, h.ysize, h.zMap, h.vram, fun t _ => ?_⟩
  rw [h.sheet0]

namespace Layers

/-- Redrawing after the sheets have been restacked. -/
theorem refresh_spec (h : Layers c l) (hd : Drawable c) (r : Rect) (k : Nat) (zEnd : Int)
    (hend : -1 ≤ zEnd) (hend' : zEnd < l.length) :
    ∃ m v, c.refresh r k zEnd = some { c with zMap := m, vram := v } ∧ ZmapUpdated c l r k m ∧
      ScreenUpdated { c with zMap := m } l r k zEnd v := by
  obtain ⟨m, hm, hspec⟩ := h.updateZmap_spec hd r k
  have h' : Layers { c with zMap := m } l := h.congr rfl rfl rfl fun _ => rfl
  have hd' : Drawable { c with zMap := m } := ⟨hd.xsize, hd.ysize, hd.buf⟩
  obtain ⟨v, hv, hspec'⟩ := h'.updateScreen_spec hd' r k zEnd hend hend'
  refine ⟨m, v, ?_, hspec, hspec'⟩
  rw [SHTCTL.refresh, hm]
  exact hv

/-! ### The calls -/

variable (h : Layers ctl l) (hd : Drawable ctl)

include h hd

section InUse

variable (hu : (ctl.sheet0 s).flags = .inUse)
include hu

theorem updown_step {z : Int} (hr : ctl.InRange s z) :
    ∃ ctl', sheetUpdown ctl s z = some ctl' ∧ Layers ctl' (restack l s z) ∧ Drawable ctl' ∧
      SheetStep ctl l (.updown s z) ctl' (restack l s z) := by
  rcases h.updown_redraw hu hr with ⟨heq, hl⟩ | ⟨c, k, zEnd, hre, hl, hpic, heq⟩
  · rw [hl]
    exact ⟨ctl, heq, h, hd, .still (.refl l ctl)⟩
  · have hdc := hpic.drawable hd
    obtain ⟨m, v, heq', hm, hv⟩ := hl.refresh_spec hdc (ctl.area s) k zEnd hre.le_zEnd hre.zEnd_lt
    exact ⟨_, heq.trans heq', hl.congr rfl rfl rfl fun _ => rfl, ⟨hdc.xsize, hdc.ysize, hdc.buf⟩,
      .restack hre hpic hm hv⟩

/-- A hidden sheet is not redrawn. -/
theorem updateSheet_spec (r : Rect) :
    (s ∉ l ∧ sheetUpdateSheet ctl s r = some ctl) ∨
      ∃ i v, l[i]? = some s ∧ sheetUpdateSheet ctl s r = some { ctl with vram := v } ∧
        ScreenUpdated ctl l (ctl.onScreenRect s r) i i v := by
  by_cases hz : (ctl.sheet0 s).z < 0
  · exact .inl ⟨fun hs => Int.not_lt.mpr ((h.mem_iff hu).mp hs) hz, if_pos hz⟩
  · obtain ⟨i, hi⟩ := List.getElem?_of_mem ((h.mem_iff hu).mpr (Int.not_lt.mp hz))
    have hpos : (ctl.sheet0 s).z = i := h.pos_eq hi
    have hlt := (List.getElem?_eq_some_iff.mp hi).1
    obtain ⟨v, heq, hv⟩ := h.updateScreen_spec hd (ctl.onScreenRect s r) i i
      (by omega) (by omega)
    refine .inr ⟨i, v, hi, ?_, hv⟩
    simp only [sheetUpdateSheet]
    rw [if_neg hz, hpos]
    exact heq

theorem updateSheet_step (r : Rect) :
    ∃ ctl', sheetUpdateSheet ctl s r = some ctl' ∧ Layers ctl' l ∧ Drawable ctl' ∧
      SheetStep ctl l (.updateSheet s r) ctl' l := by
  rcases h.updateSheet_spec hd hu r with ⟨-, heq⟩ | ⟨i, v, hi, heq, hv⟩
  · exact ⟨ctl, heq, h, hd, .still (.refl l ctl)⟩
  · exact ⟨{ ctl with vram := v }, heq, h.congr rfl rfl rfl fun _ => rfl,
      ⟨hd.xsize, hd.ysize, hd.buf⟩, .update hi hv⟩

/-- `sheet_slide` redraws where the sheet was and where it is. -/
theorem slide_step (x y : Int) :
    ∃ ctl', sheetSlide ctl s x y = some ctl' ∧ Layers ctl' l ∧ Drawable ctl' ∧
      SheetStep ctl l (.slide s x y) ctl' l := by
  obtain ⟨c, hc⟩ : ∃ c, c = ctl.setSheet s { ctl.sheet0 s with xStart := x, yStart := y } :=
    ⟨_, rfl⟩
  have hl : Layers c l := hc ▸ h.setSheet rfl rfl
  have hdc : Drawable c := hc ▸ hd.setSheet (hd.buf s)
  simp only [sheetSlide, ← hc]
  by_cases hz : (ctl.sheet0 s).z < 0
  · rw [if_pos hz]
    have hs : s ∉ l := fun hs => Int.not_lt.mpr ((h.mem_iff hu).mp hs) hz
    exact ⟨c, rfl, hl, hdc, .still (hc ▸ .setHidden hs _)⟩
  · obtain ⟨i, hi⟩ := List.getElem?_of_mem ((h.mem_iff hu).mpr (Int.not_lt.mp hz))
    have hpos : (ctl.sheet0 s).z = i := h.pos_eq hi
    have hlt := (List.getElem?_eq_some_iff.mp hi).1
    have harea : (ctl.sheet0 s).areaAt x y = c.area s := by
      rw [hc]
      simp [SHTCTL.area, SHTCTL.setSheet, SHEET.areaAt]
    rw [if_neg hz, hpos, harea]
    obtain ⟨m₁, heq₁, hm₁⟩ := hl.updateZmap_spec hdc (ctl.area s) 0
    have h₁ : Layers { c with zMap := m₁ } l := hl.congr rfl rfl rfl fun _ => rfl
    have hd₁ : Drawable { c with zMap := m₁ } := ⟨hdc.xsize, hdc.ysize, hdc.buf⟩
    obtain ⟨m₂, heq₂, hm₂⟩ := h₁.updateZmap_spec hd₁ (c.area s) i
    have h₂ : Layers { c with zMap := m₂ } l := hl.congr rfl rfl rfl fun _ => rfl
    have hd₂ : Drawable { c with zMap := m₂ } := ⟨hdc.xsize, hdc.ysize, hdc.buf⟩
    obtain ⟨v₁, heq₃, hv₁⟩ := h₂.updateScreen_spec hd₂ (ctl.area s) 0 (i - 1)
      (by omega) (by omega)
    have h₃ : Layers { c with zMap := m₂, vram := v₁ } l := hl.congr rfl rfl rfl fun _ => rfl
    have hd₃ : Drawable { c with zMap := m₂, vram := v₁ } := ⟨hdc.xsize, hdc.ysize, hdc.buf⟩
    obtain ⟨v₂, heq₄, hv₂⟩ := h₃.updateScreen_spec hd₃ (c.area s) i i
      (by omega) (by omega)
    refine ⟨{ c with zMap := m₂, vram := v₂ }, ?_, hl.congr rfl rfl rfl fun _ => rfl,
      ⟨hdc.xsize, hdc.ysize, hdc.buf⟩, .slide hi hc hm₁ hm₂ hv₁ hv₂⟩
    exact (congrArg (Option.bind · _) heq₁).trans ((congrArg (Option.bind · _) heq₂).trans
      ((congrArg (Option.bind · _) heq₃).trans heq₄))

/-- `sheet_free` hides a sheet before it frees it. -/
theorem free_step :
    ∃ ctl' l', sheetFree ctl s = some ctl' ∧ Layers ctl' l' ∧ Drawable ctl' ∧
      SheetStep ctl l (.free s) ctl' l' := by
  obtain ⟨ctl', heq, hl', hd'⟩ := h.free hd hu
  have h₀ : Layers (sheetTextboxFree ctl s) l := h.setSheet rfl rfl
  have hu₀ : ((sheetTextboxFree ctl s).sheet0 s).flags = .inUse :=
    (congrArg SHEET.flags (if_pos rfl)).trans hu
  have hz₀ : ((sheetTextboxFree ctl s).sheet0 s).z = (ctl.sheet0 s).z := by
    simp [sheetTextboxFree, SHTCTL.setSheet]
  have hsame : SameSeen l ctl (sheetTextboxFree ctl s) := .setSheet _ _ _
  by_cases hs : s ∈ l
  · obtain ⟨i, hi⟩ := List.getElem?_of_mem hs
    have hpos : (ctl.sheet0 s).z = i := h.pos_eq hi
    have hrest := length_erase_of_index hi
    have hd₀ : Drawable (sheetTextboxFree ctl s) := hd.setSheet (hd.buf s)
    have hnorm : (sheetTextboxFree ctl s).normalize (-1) = -1 := h₀.normalize_eq (-1)
    obtain ⟨c, hc, hpic, heq₁⟩ := h₀.updown_hide hu₀ hi hnorm
    have harea : (sheetTextboxFree ctl s).area s = ctl.area s := by
      simp [SHTCTL.area, sheetTextboxFree, SHTCTL.setSheet, SHEET.areaAt]
    obtain ⟨m, v, heq₂, hm, hv⟩ := hc.refresh_spec (hpic.drawable hd₀) (ctl.area s) 0
      (i - 1) (by omega) (by rw [restack_neg (by decide)]; omega)
    refine ⟨ctl', _, heq, hl', hd', .free hi (hsame.trans (hpic.sameSeen l)) hm hv ?_⟩
    have hhide : sheetUpdown (sheetTextboxFree ctl s) s (-1) =
        some { c with zMap := m, vram := v } := by
      rw [heq₁, harea]
      exact heq₂
    simp only [sheetFree] at heq
    rw [if_pos (by omega), hhide] at heq
    cases heq
    exact .setSheet _ _ _
  · have hneg : ¬ (ctl.sheet0 s).z ≥ 0 := fun hz => hs ((h.mem_iff hu).mpr hz)
    rw [restack_neg (by decide), List.erase_of_not_mem hs] at hl'
    refine ⟨ctl', l, heq, hl', hd', .still ?_⟩
    simp only [sheetFree] at heq
    rw [if_neg (by omega)] at heq
    cases heq
    exact hsame.trans (.setSheet _ _ _)

end InUse

/-- **Every orderly call** is never stuck and keeps the stack in order; it changes the
picture as `SheetStep` says. -/
theorem sheetStep (hop : op.Legal ctl) (horderly : op.Orderly ctl) :
    ∃ ctl' l', sheetMachine.step ctl op = some ctl' ∧ Layers ctl' l' ∧ Drawable ctl' ∧
      SheetStep ctl l op ctl' l' := by
  cases op with
  | alloc =>
    obtain ⟨h', hd'⟩ := h.alloc hd
    refine ⟨_, l, rfl, h', hd', .still ?_⟩
    unfold sheetAlloc
    split
    · exact .refl l ctl
    · exact .setSheet _ _ _
  | setbuf s buf xsize ysize colorInvisible =>
    have hs : s ∉ l := fun hs => Int.not_lt.mpr ((h.mem_iff hop.1).mp hs) horderly
    exact ⟨_, l, rfl, h.setSheet rfl rfl, hd.setSheet hop.2, .still (.setHidden hs _)⟩
  | textboxAlloc s xS yS xE yE bgColor charBgColor charColor =>
    exact ⟨_, l, rfl, h.setSheet rfl rfl, hd.setSheet (hd.buf s), .still (.setSheet _ _ _)⟩
  | draw s i color =>
    have hl' : Layers (ctl.setSheet s
        { ctl.sheet0 s with buf := (ctl.sheet0 s).buf.setIfInBounds i color }) l :=
      h.setSheet rfl rfl
    have hd' : Drawable (ctl.setSheet s
        { ctl.sheet0 s with buf := (ctl.sheet0 s).buf.setIfInBounds i color }) := by
      refine hd.setSheet ?_
      rw [Array.size_setIfInBounds]
      exact hd.buf s
    refine ⟨_, l, rfl, hl', hd', ?_⟩
    by_cases hs : s ∈ l
    · exact .draw hs (horderly.resolve_left (Int.not_lt.mpr ((h.mem_iff hop.1).mp hs)))
    · exact .still (.setHidden hs _)
  | updateSheet s r =>
    obtain ⟨ctl', hstep⟩ := h.updateSheet_step hd hop r
    exact ⟨ctl', l, hstep⟩
  | updown s zNew =>
    obtain ⟨ctl', hstep⟩ := h.updown_step hd hop horderly
    exact ⟨ctl', _, hstep⟩
  | slide s xDst yDst =>
    obtain ⟨ctl', hstep⟩ := h.slide_step hd hop xDst yDst
    exact ⟨ctl', l, hstep⟩
  | free s => exact h.free_step hd hop

end Layers

end UnagiOs
