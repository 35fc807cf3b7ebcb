import UnagiOs.Graphic.Sheet

/-!
# Redrawing stays inside the memory

The rectangle to redraw is widened, clamped to the screen, moved into the
coordinates of a sheet and clamped to the sheet. Whatever the rectangle and
wherever the sheet is, a pixel that is left lies in the sheet and on the screen,
so the two update functions are never stuck while the sheets they visit exist.
They write nothing but `zMap` and `vram`.
-/

namespace UnagiOs

/-- The screen is not empty and every buffer has room for its pixels. -/
structure Drawable (ctl : SHTCTL) : Prop where
  xsize : 0 < ctl.xsize
  ysize : 0 < ctl.ysize
  buf : ∀ s, (ctl.sheet0 s).bufXsize * (ctl.sheet0 s).bufYsize ≤ (ctl.sheet0 s).buf.size

variable {ctl ctl' : SHTCTL} {s : SHEET} {sheet : SheetId} {r : Rect} {p : Int × Int}

theorem clamp_bounds {size : Int} (h : 0 < size) (c : Int) :
    0 ≤ clamp size c ∧ clamp size c < size := by
  simp only [clamp]
  split <;> split <;> omega

theorem clamp_le {size c x : Int} (hx : 0 ≤ x) (hc : c ≤ x) : clamp size c ≤ x := by
  simp only [clamp]
  by_cases h : c < 0
  · rw [if_pos h]
    split <;> omega
  · rw [if_neg h]
    split <;> omega

theorem le_clamp {size c x : Int} (hx : x < size) (hc : x ≤ c) : x ≤ clamp size c := by
  simp only [clamp]
  by_cases h : c < 0
  · rw [if_pos h]
    split <;> omega
  · rw [if_neg h]
    split <;> omega

theorem Rect.mem_pixels : p ∈ r.pixels ↔
    (r.xStart ≤ p.1 ∧ p.1 ≤ r.xEnd) ∧ r.yStart ≤ p.2 ∧ p.2 ≤ r.yEnd := by
  obtain ⟨x, y⟩ := p
  simp only [Rect.pixels, List.mem_flatMap, List.mem_map, Int.mem_range_iff, Prod.mk.injEq,
    Int.lt_add_one_iff]
  constructor
  · rintro ⟨y', hy, x', hx, rfl, rfl⟩
    exact ⟨hx, hy⟩
  · rintro ⟨hx, hy⟩
    exact ⟨y, hy, x, hx, rfl, rfl⟩

/-- What is left of a rectangle after clipping lies in the buffer and in the
rectangle. -/
theorem SHEET.mem_clip (h : p ∈ (s.clip r).pixels) :
    (0 ≤ p.1 ∧ p.1 < s.bufXsize) ∧ (0 ≤ p.2 ∧ p.2 < s.bufYsize) ∧
      (r.xStart ≤ s.xStart + p.1 ∧ s.xStart + p.1 ≤ r.xEnd) ∧
      r.yStart ≤ s.yStart + p.2 ∧ s.yStart + p.2 ≤ r.yEnd := by
  obtain ⟨⟨hx, hx'⟩, hy, hy'⟩ := Rect.mem_pixels.mp h
  simp only [SHEET.clip] at hx hx' hy hy'
  have hxs : 0 ≤ p.1 ∧ r.xStart - s.xStart ≤ p.1 := by split at hx <;> omega
  have hxe : p.1 < s.bufXsize ∧ p.1 ≤ r.xEnd - s.xStart := by split at hx' <;> omega
  have hys : 0 ≤ p.2 ∧ r.yStart - s.yStart ≤ p.2 := by split at hy <;> omega
  have hye : p.2 < s.bufYsize ∧ p.2 ≤ r.yEnd - s.yStart := by split at hy' <;> omega
  omega

namespace Drawable

/-- The rectangle to redraw for the whole screen is the screen. -/
theorem clip_whole (h : Drawable ctl) :
    ctl.clip ⟨0, 0, ctl.xsize, ctl.ysize⟩ = ⟨0, 0, ctl.xsize - 1, ctl.ysize - 1⟩ := by
  have hlow : ∀ size : Int, 0 < size → clamp size (0 - 1) = 0 := by
    intro size hsize
    simp only [clamp]
    split <;> split <;> omega
  have hhigh : ∀ size : Int, 0 < size → clamp size (size + 1) = size - 1 := by
    intro size hsize
    simp only [clamp]
    split <;> split <;> omega
  simp only [SHTCTL.clip, hlow _ h.xsize, hlow _ h.ysize, hhigh _ h.xsize, hhigh _ h.ysize]

/-- A pixel of a sheet has a colour. -/
theorem exists_color (h : Drawable ctl) (hx : 0 ≤ p.1 ∧ p.1 < (ctl.sheet0 sheet).bufXsize)
    (hy : 0 ≤ p.2 ∧ p.2 < (ctl.sheet0 sheet).bufYsize) :
    ∃ color, (ctl.sheet0 sheet).pixel p.1 p.2 = some color := by
  obtain ⟨h0, hlt⟩ := rowMajor_bounds hx.1 hx.2 hy.1 hy.2
  have hbuf := h.buf sheet
  have hsize : ((ctl.sheet0 sheet).bufXsize * p.2 + p.1).toNat < (ctl.sheet0 sheet).buf.size := by
    omega
  exact ⟨_, by rw [SHEET.pixel, if_pos h0, Array.getElem?_eq_getElem hsize]⟩

/-- A pixel that is left after clipping has a colour and a place on the screen. -/
theorem pixel (h : Drawable ctl)
    (hp : p ∈ ((ctl.sheet0 sheet).clip (ctl.clip r)).pixels) :
    (∃ color, (ctl.sheet0 sheet).pixel p.1 p.2 = some color) ∧
      ∃ i, ctl.pixelIndex ((ctl.sheet0 sheet).xStart + p.1) ((ctl.sheet0 sheet).yStart + p.2) =
        some i := by
  obtain ⟨hx, hy, ⟨hsx, hsx'⟩, hsy, hsy'⟩ := SHEET.mem_clip hp
  have hxs := (clamp_bounds h.xsize (r.xStart - 1)).1
  have hxe := (clamp_bounds h.xsize (r.xEnd + 1)).2
  have hys := (clamp_bounds h.ysize (r.yStart - 1)).1
  have hye := (clamp_bounds h.ysize (r.yEnd + 1)).2
  simp only [SHTCTL.clip] at hsx hsx' hsy hsy'
  exact ⟨h.exists_color hx hy, _,
    if_pos (rowMajor_bounds (Int.le_trans hxs hsx) (Int.lt_of_le_of_lt hsx' hxe)
      (Int.le_trans hys hsy) (Int.lt_of_le_of_lt hsy' hye))⟩

/-- The loops over the sheets and their pixels come back when the sheets exist
and the body is not stuck on a pixel that is left after clipping. -/
theorem exists_sheets {β : Type} {zs : List Int} (f : SheetId → β → Int × Int → Option β)
    (hz : ∀ z ∈ zs, ∃ sheet, ctl.sheetAt z = some sheet)
    (hf : ∀ sheet b, ∀ p ∈ ((ctl.sheet0 sheet).clip (ctl.clip r)).pixels,
      ∃ b', f sheet b p = some b') (b : β) :
    ∃ b', zs.foldlM (fun b z => do
      let sheet ← ctl.sheetAt z
      ((ctl.sheet0 sheet).clip (ctl.clip r)).pixels.foldlM (f sheet) b) b = some b' := by
  refine exists_foldlM (fun b z hmem => ?_) b
  obtain ⟨sheet, hsheet⟩ := hz z hmem
  rw [hsheet]
  exact exists_foldlM (hf sheet) b

/-- `sheet_update_zmap` comes back. -/
theorem updateZmap (h : Drawable ctl) (r : Rect) {zStart : Int}
    (hz : ∀ z, zStart ≤ z → z ≤ ctl.zTop → ∃ sheet, ctl.sheetAt z = some sheet) :
    ∃ m, sheetUpdateZmap ctl r zStart = some { ctl with zMap := m } := by
  have hzs : ∀ z ∈ Int.range zStart (ctl.zTop + 1), ∃ sheet, ctl.sheetAt z = some sheet := by
    intro z hmem
    rw [Int.mem_range_iff] at hmem
    exact hz z hmem.1 (Int.lt_add_one_iff.mp hmem.2)
  obtain ⟨m, hm⟩ := exists_sheets (r := r) (fun sheet m p => zmapPixel ctl sheet m p.1 p.2) hzs
    (fun sheet m p hp => by
      obtain ⟨⟨color, hcolor⟩, i, hi⟩ := h.pixel hp
      simp only [zmapPixel, hcolor, hi, Option.bind_eq_bind, Option.bind_some]
      split <;> exact ⟨_, rfl⟩) ctl.zMap
  exact ⟨m, by rw [sheetUpdateZmap, hm]; rfl⟩

/-- `sheet_update_with_screenxy` comes back. -/
theorem updateWithScreenxy (h : Drawable ctl) (r : Rect) {zStart zEnd : Int}
    (hz : ∀ z, zStart ≤ z → z ≤ ctl.zTop ∨ z ≤ zEnd → ∃ sheet, ctl.sheetAt z = some sheet) :
    ∃ v, sheetUpdateWithScreenxy ctl r zStart zEnd = some { ctl with vram := v } := by
  have hzs : ∀ z ∈ Int.range zStart ((if zEnd = -1 then ctl.zTop else zEnd) + 1),
      ∃ sheet, ctl.sheetAt z = some sheet := by
    intro z hmem
    rw [Int.mem_range_iff] at hmem
    exact hz z hmem.1 (by have hlt := hmem.2; split at hlt <;> omega)
  obtain ⟨v, hv⟩ := exists_sheets (r := r) (fun sheet v p => vramPixel ctl sheet v p.1 p.2) hzs
    (fun sheet v p hp => by
      obtain ⟨⟨color, hcolor⟩, i, hi⟩ := h.pixel hp
      simp only [vramPixel, hcolor, hi, Option.bind_eq_bind, Option.bind_some]
      exact ⟨_, rfl⟩) ctl.vram
  exact ⟨v, by simp only [sheetUpdateWithScreenxy, hv]; rfl⟩

end Drawable

/-- Whether or not it is stuck, redrawing writes only `zMap` and `vram`. -/
theorem refresh_eq {zStart zEnd : Int} (h : ctl.refresh r zStart zEnd = some ctl') :
    ∃ m v, ctl' = { ctl with zMap := m, vram := v } := by
  simp only [SHTCTL.refresh, sheetUpdateZmap, sheetUpdateWithScreenxy, Option.bind_eq_bind,
    Option.bind_eq_some_iff, Option.some.injEq] at h
  obtain ⟨_, ⟨m, -, rfl⟩, v, -, rfl⟩ := h
  exact ⟨m, v, rfl⟩

/-- The redrawing at the end of `sheet_updown` comes back. -/
theorem Drawable.refresh (h : Drawable ctl) (r : Rect) {zStart zEnd : Int}
    (hz : ∀ z, zStart ≤ z → z ≤ ctl.zTop ∨ z ≤ zEnd → ∃ sheet, ctl.sheetAt z = some sheet) :
    ∃ m v, ctl.refresh r zStart zEnd = some { ctl with zMap := m, vram := v } := by
  obtain ⟨m, hm⟩ := h.updateZmap r fun z h₁ h₂ => hz z h₁ (.inl h₂)
  have h' : Drawable { ctl with zMap := m } := ⟨h.xsize, h.ysize, h.buf⟩
  obtain ⟨v, hv⟩ := h'.updateWithScreenxy r hz
  exact ⟨m, v, by simp only [SHTCTL.refresh, hm, Option.bind_eq_bind, Option.bind_some]; exact hv⟩

end UnagiOs
