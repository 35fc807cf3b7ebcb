import UnagiOs.Graphic.SheetPixels
import UnagiOs.Graphic.SheetRun

/-!
# What the drawing loops access

A round of the pixel loops pairs a pixel of a sheet's buffer with a pixel of the screen.
`SHTCTL.accesses` lists these pairs for a whole redraw.

- `sheetUpdates_inBounds`: `sheet_update_zmap` and `sheet_update_with_screenxy` pair pixels
  of the sheets with pixels of the screen only.
- `sheetUpdateAll_eq_iff`: `sheet_update_all`, which does not clip, takes a pixel off the screen
  for one on it. It draws what `sheet_update_with_screenxy` draws on the whole screen iff no such
  pixel leaves a wrong colour where `zMap` names its sheet.
- `sheetUpdateAll_wraps`: a sheet as wide as the screen, moved to the left, is drawn into
  the wrong row.
-/

namespace UnagiOs

open List

/-- One round of the pixel loops: a pixel of the buffer and the pixel of the screen it
goes with. -/
structure PixelAccess where
  sheet : SheetId
  bufX : Int
  bufY : Int
  x : Int
  y : Int

/-- The index into `buf`. -/
def PixelAccess.bufIndex (ctl : SHTCTL) (a : PixelAccess) : Int :=
  (ctl.sheet0 a.sheet).bufXsize * a.bufY + a.bufX

/-- The index into `zMap` and `vram`. -/
def PixelAccess.screenIndex (ctl : SHTCTL) (a : PixelAccess) : Int := ctl.xsize * a.y + a.x

/-- The rounds of the loops over a part of a sheet. -/
def SHTCTL.sheetAccesses (ctl : SHTCTL) (sheet : SheetId) (part : Rect) : List PixelAccess :=
  part.pixels.map fun p =>
    ⟨sheet, p.1, p.2, (ctl.sheet0 sheet).xStart + p.1, (ctl.sheet0 sheet).yStart + p.2⟩

/-- The rounds of the loops over the sheets from `zStart` to `zEnd`, for the part of each
sheet that is visited. -/
def SHTCTL.accesses (ctl : SHTCTL) (part : SHEET → Rect) (zStart zEnd : Int) : List PixelAccess :=
  (Int.range zStart (zEnd + 1)).flatMap fun z =>
    match ctl.sheetAt z with
    | none => []
    | some sheet => ctl.sheetAccesses sheet (part (ctl.sheet0 sheet))

/-- The round of `sheet_update_zmap`. -/
def zmapRound (ctl : SHTCTL) (zMap : Nat → UInt8) (a : PixelAccess) : Option (Nat → UInt8) :=
  zmapPixel ctl a.sheet zMap a.bufX a.bufY

/-- The round of the redrawing loops. -/
def vramRound (ctl : SHTCTL) (vram : Nat → UInt8) (a : PixelAccess) : Option (Nat → UInt8) :=
  vramPixel ctl a.sheet vram a.bufX a.bufY

/-- The access pairs a pixel of the sheet with the pixel of the screen that it lies on, and its
indices are in range. -/
structure PixelAccess.InBounds (ctl : SHTCTL) (a : PixelAccess) : Prop where
  x : a.x = (ctl.sheet0 a.sheet).xStart + a.bufX
  y : a.y = (ctl.sheet0 a.sheet).yStart + a.bufY
  inSheet : (0 ≤ a.bufX ∧ a.bufX < (ctl.sheet0 a.sheet).bufXsize) ∧
    0 ≤ a.bufY ∧ a.bufY < (ctl.sheet0 a.sheet).bufYsize
  onScreen : ctl.OnScreen a.x a.y
  buf : 0 ≤ a.bufIndex ctl ∧
    a.bufIndex ctl < (ctl.sheet0 a.sheet).bufXsize * (ctl.sheet0 a.sheet).bufYsize
  screen : 0 ≤ a.screenIndex ctl ∧ a.screenIndex ctl < ctl.xsize * ctl.ysize

variable {ctl : SHTCTL} {l : List SheetId} {r : Rect} {zStart zEnd : Int}

/-! ## Clipped redraws -/

/-- A loop over the sheets and their pixels is a loop over the accesses. -/
theorem foldlM_accesses {β : Type} (f : SheetId → β → Int × Int → Option β)
    (part : SHEET → Rect)
    (hz : ∀ z ∈ Int.range zStart (zEnd + 1), ∃ sheet, ctl.sheetAt z = some sheet) (b : β) :
    (Int.range zStart (zEnd + 1)).foldlM (fun b z => do
      let sheet ← ctl.sheetAt z
      (part (ctl.sheet0 sheet)).pixels.foldlM (f sheet) b) b =
    (ctl.accesses part zStart zEnd).foldlM (fun b a => f a.sheet b (a.bufX, a.bufY)) b := by
  rw [SHTCTL.accesses, foldlM_flatMap]
  refine foldlM_congr (fun b z hmem => ?_) b
  obtain ⟨sheet, hsheet⟩ := hz z hmem
  simp only [hsheet, SHTCTL.sheetAccesses, foldlM_map]
  rfl

/-- The pixels that a redraw reads and writes, sheet by sheet. -/
theorem SHTCTL.mem_accesses {part : SHEET → Rect} {a : PixelAccess} :
    a ∈ ctl.accesses part zStart zEnd ↔ ∃ z sheet p, (zStart ≤ z ∧ z ≤ zEnd) ∧
      ctl.sheetAt z = some sheet ∧ p ∈ (part (ctl.sheet0 sheet)).pixels ∧
      a = ⟨sheet, p.1, p.2, (ctl.sheet0 sheet).xStart + p.1, (ctl.sheet0 sheet).yStart + p.2⟩ := by
  simp only [SHTCTL.accesses, mem_flatMap, Int.mem_range_iff, Int.lt_add_one_iff]
  constructor
  · rintro ⟨z, hz, ha⟩
    cases hsheet : ctl.sheetAt z with
    | none => simp [hsheet] at ha
    | some sheet =>
      simp only [hsheet, SHTCTL.sheetAccesses, mem_map] at ha
      obtain ⟨p, hp, rfl⟩ := ha
      exact ⟨z, sheet, p, hz, hsheet, hp, rfl⟩
  · rintro ⟨z, sheet, p, hz, hsheet, hp, rfl⟩
    refine ⟨z, hz, ?_⟩
    simp only [hsheet, SHTCTL.sheetAccesses, mem_map]
    exact ⟨p, hp, rfl⟩

/-- **A clipped access is in bounds**, wherever the rectangle and the sheet are. -/
theorem Drawable.inBounds (hd : Drawable ctl) {a : PixelAccess}
    (ha : a ∈ ctl.accesses (fun s => s.clip (ctl.clip r)) zStart zEnd) : a.InBounds ctl := by
  obtain ⟨z, sheet, p, -, -, hp, rfl⟩ := SHTCTL.mem_accesses.mp ha
  obtain ⟨hx, hy, -⟩ := SHEET.mem_clip hp
  have hon := hd.onScreen (SHEET.mem_clip_iff.mp hp).2
  exact ⟨rfl, rfl, ⟨hx, hy⟩, hon, rowMajor_bounds hx.1 hx.2 hy.1 hy.2,
    rowMajor_bounds hon.1.1 hon.1.2 hon.2.1 hon.2.2⟩

theorem sheetUpdateZmap_eq_rounds (r : Rect)
    (hz : ∀ z ∈ Int.range zStart (ctl.zTop + 1), ∃ sheet, ctl.sheetAt z = some sheet) :
    sheetUpdateZmap ctl r zStart =
      ((ctl.accesses (fun s => s.clip (ctl.clip r)) zStart ctl.zTop).foldlM (zmapRound ctl)
        ctl.zMap).map fun m => { ctl with zMap := m } := by
  have hloop := foldlM_accesses (fun sheet m p => zmapPixel ctl sheet m p.1 p.2)
    (fun s => s.clip (ctl.clip r)) hz ctl.zMap
  rw [sheetUpdateZmap, hloop, Option.map_eq_bind]
  rfl

theorem sheetUpdateWithScreenxy_eq_rounds (r : Rect) (zEnd : Int)
    (hz : ∀ z ∈ Int.range zStart ((if zEnd = -1 then ctl.zTop else zEnd) + 1),
      ∃ sheet, ctl.sheetAt z = some sheet) :
    sheetUpdateWithScreenxy ctl r zStart zEnd =
      ((ctl.accesses (fun s => s.clip (ctl.clip r)) zStart
        (if zEnd = -1 then ctl.zTop else zEnd)).foldlM (vramRound ctl) ctl.vram).map
          fun v => { ctl with vram := v } := by
  have hloop := foldlM_accesses (fun sheet v p => vramPixel ctl sheet v p.1 p.2)
    (fun s => s.clip (ctl.clip r)) hz ctl.vram
  simp only [sheetUpdateWithScreenxy]
  rw [hloop, Option.map_eq_bind]
  rfl

/-- **The two update functions access nothing outside** the buffers of the sheets, `zMap` and
`vram`, whatever the screen, the sheets and the rectangle are, and pair each pixel of a sheet
with the pixel of the screen that it lies on. -/
theorem sheetUpdates_inBounds (hd : Drawable ctl) (r : Rect) (zStart zEnd : Int)
    (hz : ∀ z, zStart ≤ z → z ≤ ctl.zTop ∨ z ≤ zEnd → ∃ sheet, ctl.sheetAt z = some sheet) :
    (∃ m, sheetUpdateZmap ctl r zStart = some { ctl with zMap := m } ∧
      (ctl.accesses (fun s => s.clip (ctl.clip r)) zStart ctl.zTop).foldlM (zmapRound ctl)
        ctl.zMap = some m ∧
      ∀ a ∈ ctl.accesses (fun s => s.clip (ctl.clip r)) zStart ctl.zTop, a.InBounds ctl) ∧
    ∃ v, sheetUpdateWithScreenxy ctl r zStart zEnd = some { ctl with vram := v } ∧
      (ctl.accesses (fun s => s.clip (ctl.clip r)) zStart
        (if zEnd = -1 then ctl.zTop else zEnd)).foldlM (vramRound ctl) ctl.vram = some v ∧
      ∀ a ∈ ctl.accesses (fun s => s.clip (ctl.clip r)) zStart
        (if zEnd = -1 then ctl.zTop else zEnd), a.InBounds ctl := by
  constructor
  · have hrounds := sheetUpdateZmap_eq_rounds r fun z hmem => by
      rw [Int.mem_range_iff] at hmem
      exact hz z hmem.1 (.inl (Int.lt_add_one_iff.mp hmem.2))
    obtain ⟨m, hm⟩ := hd.updateZmap r fun z h₁ h₂ => hz z h₁ (.inl h₂)
    rw [hrounds, Option.map_eq_some_iff] at hm
    obtain ⟨m', hm', -⟩ := hm
    exact ⟨m', by rw [hrounds, hm', Option.map_some], hm', fun a ha => hd.inBounds ha⟩
  · have hrounds := sheetUpdateWithScreenxy_eq_rounds r zEnd fun z hmem => by
      rw [Int.mem_range_iff] at hmem
      refine hz z hmem.1 ?_
      have hlt := hmem.2
      split at hlt <;> omega
    obtain ⟨v, hv⟩ := hd.updateWithScreenxy r hz
    rw [hrounds, Option.map_eq_some_iff] at hv
    obtain ⟨v', hv', -⟩ := hv
    exact ⟨v', by rw [hrounds, hv', Option.map_some], hv', fun a ha => hd.inBounds ha⟩

instance (ctl : SHTCTL) : Decidable (Drawable ctl) :=
  decidable_of_iff (0 < ctl.xsize ∧ 0 < ctl.ysize ∧
      ∀ s, (ctl.sheet0 s).bufXsize * (ctl.sheet0 s).bufYsize ≤ (ctl.sheet0 s).buf.size)
    ⟨fun h => ⟨h.1, h.2.1, h.2.2⟩, fun h => ⟨h.xsize, h.ysize, h.buf⟩⟩

/-- A desktop, and a window that ends past the right edge of the screen. -/
def windowHalfOff : List SheetOp :=
  [.alloc, .setbuf 0 #[1, 1, 1, 1, 1, 1, 1, 1] 4 2 (-1), .alloc, .setbuf 1 #[8, 8] 2 1 (-1),
    .slide 1 3 0, .updown 0 0, .updown 1 1]

/-- The window is redrawn in a rectangle larger than the screen. -/
theorem sheetUpdates_inBounds_half_off : ∃ ctl,
    sheetMachine.run (shtctlInit (fun _ => 0) 4 2) windowHalfOff = some ctl ∧
    ∃ m, sheetUpdateZmap ctl ⟨-3, -1, 9, 9⟩ 0 = some { ctl with zMap := m } ∧
      (ctl.accesses (fun s => s.clip (ctl.clip ⟨-3, -1, 9, 9⟩)) 0 ctl.zTop).foldlM (zmapRound ctl)
        ctl.zMap = some m ∧
      ∀ a ∈ ctl.accesses (fun s => s.clip (ctl.clip ⟨-3, -1, 9, 9⟩)) 0 ctl.zTop,
        a.InBounds ctl := by
  have hex : ∃ ctl, sheetMachine.run (shtctlInit (fun _ => 0) 4 2) windowHalfOff = some ctl ∧
      Drawable ctl ∧ ∀ z, 0 ≤ z → z ≤ ctl.zTop → (ctl.sheetAt z).isSome :=
    Machine.exists_run_of_any (by decide +kernel)
  obtain ⟨ctl, hrun, hd, hz⟩ := hex
  refine ⟨ctl, hrun, (sheetUpdates_inBounds hd _ 0 (-1) fun z h₁ h₂ => ?_).1⟩
  exact Option.isSome_iff_exists.mp (hz z h₁ (by omega))

/-! ## `sheet_update_all` -/

/-- No access of the sheet further down has the same index. -/
def PixelAccess.Last (ctl : SHTCTL) (a : PixelAccess) : Prop :=
  ∀ b ∈ ctl.accesses SHEET.whole 0 ctl.zTop, b.sheet = a.sheet →
    b.screenIndex ctl = a.screenIndex ctl → b.bufY ≤ a.bufY

/-- What the pixel of the screen with this index is to show if it shows this sheet: the colour that
the sheet has there, or what was there before if the sheet does not reach it. -/
def PixelAccess.due (ctl : SHTCTL) (a : PixelAccess) : UInt8 :=
  ((ctl.sheet0 a.sheet).colorAt (a.screenIndex ctl % ctl.xsize)
    (a.screenIndex ctl / ctl.xsize)).getD (ctl.vram (a.screenIndex ctl).toNat)

/-- The index is one of the screen and, if `zMap` names the sheet there and no later access has the
same index, the colour is the one due there. -/
def PixelAccess.Harmless (ctl : SHTCTL) (a : PixelAccess) : Prop :=
  (0 ≤ a.screenIndex ctl ∧ a.screenIndex ctl < ctl.xsize * ctl.ysize) ∧
    ((ctl.zMap (a.screenIndex ctl).toNat).toNat = a.sheet → a.Last ctl →
      (ctl.sheet0 a.sheet).pixel a.bufX a.bufY = some (a.due ctl))

instance (ctl : SHTCTL) (a : PixelAccess) : Decidable (a.Last ctl) :=
  inferInstanceAs (Decidable (∀ b ∈ _, _ → _ → _))

instance (ctl : SHTCTL) (a : PixelAccess) : Decidable (a.Harmless ctl) :=
  inferInstanceAs (Decidable (_ ∧ (_ → _ → _)))

theorem Rect.pixels_filter (r : Rect) (xs xe ys ye : Int) :
    r.pixels.filter (fun p => decide ((xs ≤ p.1 ∧ p.1 ≤ xe) ∧ ys ≤ p.2 ∧ p.2 ≤ ye)) =
      Rect.pixels ⟨max r.xStart xs, max r.yStart ys, min r.xEnd xe, min r.yEnd ye⟩ := by
  have hmin : ∀ a b : Int, min (a + 1) (b + 1) = min a b + 1 := by omega
  rw [Rect.pixels, Rect.pixels, ← hmin, ← hmin, ← range_filter, ← range_filter]
  exact filter_rows _ _ (fun x => xs ≤ x ∧ x ≤ xe) (fun y => ys ≤ y ∧ y ≤ ye)

/-- What is left of a sheet after clipping to the screen are its pixels on the screen. -/
theorem Drawable.clip_screen (hd : Drawable ctl) (s : SHEET) :
    (s.clip (ctl.clip ⟨0, 0, ctl.xsize, ctl.ysize⟩)).pixels =
      s.whole.pixels.filter fun p => decide (ctl.OnScreen (s.xStart + p.1) (s.yStart + p.2)) := by
  have hon : ∀ p : Int × Int, ctl.OnScreen (s.xStart + p.1) (s.yStart + p.2) ↔
      (-s.xStart ≤ p.1 ∧ p.1 ≤ ctl.xsize - 1 - s.xStart) ∧
        -s.yStart ≤ p.2 ∧ p.2 ≤ ctl.ysize - 1 - s.yStart := by
    intro p
    simp only [SHTCTL.OnScreen]
    omega
  simp only [hon, Rect.pixels_filter, hd.clip_whole, SHEET.clip, SHEET.whole]
  congr 2
  all_goals omega

theorem sheetUpdateAll_eq_rounds
    (hz : ∀ z ∈ Int.range 0 (ctl.zTop + 1), ∃ sheet, ctl.sheetAt z = some sheet) :
    sheetUpdateAll ctl = ((ctl.accesses SHEET.whole 0 ctl.zTop).foldlM (vramRound ctl)
      ctl.vram).map fun v => { ctl with vram := v } := by
  have hloop := foldlM_accesses (fun sheet v p => vramPixel ctl sheet v p.1 p.2) SHEET.whole hz
    ctl.vram
  rw [sheetUpdateAll, hloop, Option.map_eq_bind]
  rfl

/-- The accesses of the clipped redraw are those of `sheet_update_all` that are on the screen. -/
theorem Drawable.accesses_screen (hd : Drawable ctl) (zStart zEnd : Int) :
    ctl.accesses (fun s => s.clip (ctl.clip ⟨0, 0, ctl.xsize, ctl.ysize⟩)) zStart zEnd =
      (ctl.accesses SHEET.whole zStart zEnd).filter fun a => decide (ctl.OnScreen a.x a.y) := by
  rw [SHTCTL.accesses, SHTCTL.accesses, filter_flatMap]
  refine flatMap_congr fun z _ => ?_
  cases ctl.sheetAt z with
  | none => rfl
  | some sheet =>
    simp only [SHTCTL.sheetAccesses, hd.clip_screen, filter_map]
    rfl

/-- The access of a sheet at a pixel of the screen that it lies over. -/
theorem SHTCTL.mem_accesses_whole {a : PixelAccess} :
    a ∈ ctl.accesses SHEET.whole zStart zEnd ↔ (∃ z, (zStart ≤ z ∧ z ≤ zEnd) ∧
      ctl.sheetAt z = some a.sheet) ∧ (ctl.sheet0 a.sheet).Over a.x a.y ∧
      a.bufX = a.x - (ctl.sheet0 a.sheet).xStart ∧ a.bufY = a.y - (ctl.sheet0 a.sheet).yStart := by
  rw [SHTCTL.mem_accesses]
  constructor
  · rintro ⟨z, sheet, p, hz, hsheet, hp, rfl⟩
    obtain ⟨hx, hy⟩ := Rect.mem_pixels.mp hp
    simp only [SHEET.whole] at hx hy
    refine ⟨⟨z, hz, hsheet⟩, ?_, by simp, by simp⟩
    simp only [SHEET.Over, add_sub_cancel_left]
    omega
  · obtain ⟨sheet, bufX, bufY, x, y⟩ := a
    rintro ⟨⟨z, hz, hsheet⟩, ⟨hx, hy⟩, hbx, hby⟩
    simp only at hx hy hbx hby
    refine ⟨z, sheet, (bufX, bufY), hz, hsheet, Rect.mem_pixels.mpr ?_, ?_⟩
    · simp only [SHEET.whole]
      omega
    · simp only [PixelAccess.mk.injEq, true_and]
      omega

section Redraw

variable {a b : PixelAccess} {i : Nat}

/-- `zMap` names the sheet at the index of the access. -/
def PixelAccess.named (ctl : SHTCTL) (a : PixelAccess) : Bool :=
  decide ((ctl.zMap (a.screenIndex ctl).toNat).toNat = a.sheet)

/-- The colour of the pixel of the sheet. -/
def PixelAccess.color (ctl : SHTCTL) (a : PixelAccess) : UInt8 :=
  ((ctl.sheet0 a.sheet).pixel a.bufX a.bufY).getD 0

/-- The last access that draws into a pixel of the screen. -/
def SHTCTL.drawnLast (ctl : SHTCTL) (l : List PixelAccess) (i : Nat) : Option PixelAccess :=
  topmost (fun a => a.named ctl && decide ((a.screenIndex ctl).toNat = i)) l

theorem Drawable.pixel_eq (hd : Drawable ctl) (ha : a ∈ ctl.accesses SHEET.whole zStart zEnd) :
    (ctl.sheet0 a.sheet).pixel a.bufX a.bufY = some (a.color ctl) := by
  obtain ⟨-, ⟨hx, hy⟩, hbx, hby⟩ := SHTCTL.mem_accesses_whole.mp ha
  obtain ⟨color, hcolor⟩ : ∃ color, (ctl.sheet0 a.sheet).pixel a.bufX a.bufY = some color :=
    hd.exists_color (p := (a.bufX, a.bufY)) (hbx ▸ hx) (hby ▸ hy)
  rw [PixelAccess.color, hcolor, Option.getD_some]

/-- A round stores the colour if `zMap` names the sheet. -/
theorem Drawable.vramRound_eq (hd : Drawable ctl) (ha : a ∈ ctl.accesses SHEET.whole zStart zEnd)
    (hrange : 0 ≤ a.screenIndex ctl ∧ a.screenIndex ctl < ctl.xsize * ctl.ysize)
    (v : Nat → UInt8) : vramRound ctl v a = some (if a.named ctl then
      setSlot v (a.screenIndex ctl).toNat (a.color ctl) else v) := by
  obtain ⟨-, -, hbx, hby⟩ := SHTCTL.mem_accesses_whole.mp ha
  have hx : (ctl.sheet0 a.sheet).xStart + a.bufX = a.x := by omega
  have hy : (ctl.sheet0 a.sheet).yStart + a.bufY = a.y := by omega
  have hindex : ctl.pixelIndex a.x a.y = some (a.screenIndex ctl).toNat := if_pos hrange
  simp only [vramRound, vramPixel, hd.pixel_eq ha, hx, hy, hindex, Option.bind_eq_bind,
    Option.bind_some, PixelAccess.named, decide_eq_true_eq]

/-- Two accesses of a sheet in the same row have different indices. -/
theorem PixelAccess.eq_of_row (ha : a ∈ ctl.accesses SHEET.whole zStart zEnd)
    (hb : b ∈ ctl.accesses SHEET.whole zStart zEnd) (hsheet : b.sheet = a.sheet)
    (hindex : b.screenIndex ctl = a.screenIndex ctl) (hrow : b.bufY = a.bufY) : b = a := by
  obtain ⟨-, -, hax, hay⟩ := SHTCTL.mem_accesses_whole.mp ha
  obtain ⟨-, -, hbx, hby⟩ := SHTCTL.mem_accesses_whole.mp hb
  obtain ⟨sheet, bufX, bufY, x, y⟩ := a
  obtain ⟨sheet', bufX', bufY', x', y'⟩ := b
  simp only [PixelAccess.screenIndex] at hsheet hindex hrow hax hay hbx hby
  subst hsheet
  have hy : y' = y := by omega
  subst hy
  simp only [PixelAccess.mk.injEq]
  exact ⟨trivial, by omega, by omega, by omega, trivial⟩

/-- The pixels of a rectangle come row by row. -/
theorem Rect.pixels_rows (r : Rect) : r.pixels.Pairwise fun p q => p.2 ≤ q.2 := by
  rw [Rect.pixels, pairwise_flatMap]
  constructor
  · intro y _
    rw [pairwise_map]
    exact pairwise_of_forall fun _ _ => Int.le_refl y
  · refine (range_pairwise _ _).imp fun hlt p hp q hq => ?_
    obtain ⟨x, -, rfl⟩ := mem_map.mp hp
    obtain ⟨x', -, rfl⟩ := mem_map.mp hq
    exact Int.le_of_lt hlt

/-- The last access that draws into a pixel is the last of its sheet: the rows of a sheet are drawn
from top to bottom. -/
theorem SHTCTL.last_of_drawnLast
    (h : ctl.drawnLast (ctl.accesses SHEET.whole 0 ctl.zTop) i = some a) : a.Last ctl := by
  intro b hb hsheet hindex
  obtain ⟨z, -, htop⟩ := exists_topmost_of_flatMap h
  obtain ⟨ha, hcov⟩ := topmost_mem htop
  cases hz : ctl.sheetAt z with
  | none => simp [hz] at ha
  | some sheet =>
    simp only [hz] at ha htop
    obtain ⟨-, hover, hbx, hby⟩ := SHTCTL.mem_accesses_whole.mp hb
    -- both are accesses of one loop over the sheet
    have hsa : a.sheet = sheet := by
      obtain ⟨p, -, rfl⟩ := mem_map.mp ha
      rfl
    have hmem : b ∈ ctl.sheetAccesses sheet (ctl.sheet0 sheet).whole := by
      refine mem_map.mpr ⟨(b.bufX, b.bufY), Rect.mem_pixels.mpr ?_, ?_⟩
      · rw [hsheet, hsa] at hover hbx hby
        simp only [SHEET.whole, SHEET.Over] at hover ⊢
        omega
      · rw [← hsa, ← hsheet]
        obtain ⟨sheet', bufX, bufY, x, y⟩ := b
        simp only [PixelAccess.mk.injEq, true_and] at hbx hby ⊢
        omega
    have hcovb : (b.named ctl && decide ((b.screenIndex ctl).toNat = i)) = true := by
      rwa [PixelAccess.named, hindex, hsheet]
    have hrows : (ctl.sheetAccesses sheet (ctl.sheet0 sheet).whole).Pairwise
        fun a b => a.bufY ≤ b.bufY := pairwise_map.mpr (Rect.pixels_rows _)
    rcases topmost_pairwise hrows htop hmem hcovb with rfl | hle
    · exact Int.le_refl _
    · exact hle

/-- An access that draws and is the last of its sheet is the last of all that draw there. -/
theorem SHTCTL.drawnLast_of_last (ha : a ∈ ctl.accesses SHEET.whole 0 ctl.zTop)
    (hrange : ∀ b ∈ ctl.accesses SHEET.whole 0 ctl.zTop, 0 ≤ b.screenIndex ctl)
    (hname : a.named ctl = true) (hlast : a.Last ctl) :
    ctl.drawnLast (ctl.accesses SHEET.whole 0 ctl.zTop) (a.screenIndex ctl).toNat = some a := by
  cases htop : ctl.drawnLast (ctl.accesses SHEET.whole 0 ctl.zTop) (a.screenIndex ctl).toNat with
  | none =>
    have hno := topmost_eq_none_iff.mp htop a ha
    simp [hname] at hno
  | some b =>
    obtain ⟨hb, hcov⟩ := topmost_mem htop
    rw [Bool.and_eq_true, decide_eq_true_eq] at hcov
    have hindex : b.screenIndex ctl = a.screenIndex ctl := by
      have := hrange a ha
      have := hrange b hb
      omega
    have hsheet : b.sheet = a.sheet := by
      have hnameb := of_decide_eq_true hcov.1
      rw [hindex] at hnameb
      exact Fin.ext (hnameb.symm.trans (of_decide_eq_true hname))
    have hle := hlast b hb hsheet hindex
    have hge := SHTCTL.last_of_drawnLast htop a ha hsheet.symm hindex.symm
    rw [PixelAccess.eq_of_row ha hb hsheet hindex (by omega)]

/-- What the redraw of the screen leaves in a pixel whose sheet has an access there. -/
theorem Drawable.drawn_screen (hd : Drawable ctl) (ha : a ∈ ctl.accesses SHEET.whole 0 ctl.zTop)
    (hrange : ∀ b ∈ ctl.accesses SHEET.whole 0 ctl.zTop,
      0 ≤ b.screenIndex ctl ∧ b.screenIndex ctl < ctl.xsize * ctl.ysize)
    (hname : a.named ctl = true) :
    ((ctl.drawnLast ((ctl.accesses SHEET.whole 0 ctl.zTop).filter fun b =>
        decide (ctl.OnScreen b.x b.y)) (a.screenIndex ctl).toNat).map (·.color ctl)).getD
      (ctl.vram (a.screenIndex ctl).toNat) = a.due ctl := by
  have hpos := hrange a ha
  rw [PixelAccess.due]
  cases htop : ctl.drawnLast ((ctl.accesses SHEET.whole 0 ctl.zTop).filter fun b =>
      decide (ctl.OnScreen b.x b.y)) (a.screenIndex ctl).toNat with
  | some b =>
    obtain ⟨hb, hcov⟩ := topmost_mem htop
    rw [mem_filter, decide_eq_true_eq] at hb
    rw [Bool.and_eq_true, decide_eq_true_eq] at hcov
    have hindex : b.screenIndex ctl = a.screenIndex ctl := by
      have := hrange b hb.1
      omega
    have hsheet : b.sheet = a.sheet := by
      have hnameb := of_decide_eq_true hcov.1
      rw [hindex] at hnameb
      exact Fin.ext (hnameb.symm.trans (of_decide_eq_true hname))
    obtain ⟨-, hover, hbx, hby⟩ := SHTCTL.mem_accesses_whole.mp hb.1
    have hcolor := hd.pixel_eq hb.1
    rw [hbx, hby] at hcolor
    obtain ⟨hx, hy⟩ := rowMajor_divMod hb.2.1.1 hb.2.1.2 (y := b.y)
    rw [← hindex, ← hsheet, PixelAccess.screenIndex, hx, hy, SHEET.colorAt, if_pos hover, hcolor]
    rfl
  | none =>
    -- the sheet does not reach the pixel, or it would have an access on the screen
    rw [SHEET.colorAt, if_neg, Option.map_none, Option.getD_none]
    intro hover
    have hon : ctl.OnScreen (a.screenIndex ctl % ctl.xsize) (a.screenIndex ctl / ctl.xsize) :=
      ⟨⟨Int.emod_nonneg _ (by have := hd.xsize; omega), Int.emod_lt_of_pos _ hd.xsize⟩,
        Int.ediv_nonneg hpos.1 (Int.le_of_lt hd.xsize),
        Int.ediv_lt_of_lt_mul hd.xsize (by rw [Int.mul_comm]; exact hpos.2)⟩
    obtain ⟨hshown, -⟩ := SHTCTL.mem_accesses_whole.mp ha
    obtain ⟨b, hb, honb, hsheet, hindex⟩ : ∃ b ∈ ctl.accesses SHEET.whole 0 ctl.zTop,
        ctl.OnScreen b.x b.y ∧ b.sheet = a.sheet ∧ b.screenIndex ctl = a.screenIndex ctl :=
      ⟨⟨a.sheet, _ - (ctl.sheet0 a.sheet).xStart, _ - (ctl.sheet0 a.sheet).yStart,
          a.screenIndex ctl % ctl.xsize, a.screenIndex ctl / ctl.xsize⟩,
        SHTCTL.mem_accesses_whole.mpr ⟨hshown, hover, rfl, rfl⟩, hon, rfl,
        Int.mul_ediv_add_emod _ _⟩
    have hno := topmost_eq_none_iff.mp htop b (mem_filter.mpr ⟨hb, decide_eq_true honb⟩)
    rw [PixelAccess.named, hindex, hsheet, decide_eq_true rfl, Bool.and_true] at hno
    exact absurd (hno.symm.trans hname) Bool.false_ne_true

/-- Both redraws are loops of stores, and in each pixel the last store is seen. -/
theorem Drawable.redraws (hd : Drawable ctl)
    (hz : ∀ z, 0 ≤ z → z ≤ ctl.zTop → ∃ sheet, ctl.sheetAt z = some sheet)
    (hrange : ∀ a ∈ ctl.accesses SHEET.whole 0 ctl.zTop,
      0 ≤ a.screenIndex ctl ∧ a.screenIndex ctl < ctl.xsize * ctl.ysize) :
    (∃ v, sheetUpdateAll ctl = some { ctl with vram := v } ∧ ∀ i, v i =
      ((ctl.drawnLast (ctl.accesses SHEET.whole 0 ctl.zTop) i).map (·.color ctl)).getD
        (ctl.vram i)) ∧
    ∃ v, sheetUpdateWithScreenxy ctl ⟨0, 0, ctl.xsize, ctl.ysize⟩ 0 (-1) =
        some { ctl with vram := v } ∧ ∀ i, v i =
      ((ctl.drawnLast ((ctl.accesses SHEET.whole 0 ctl.zTop).filter fun a =>
        decide (ctl.OnScreen a.x a.y)) i).map (·.color ctl)).getD (ctl.vram i) := by
  have hz' : ∀ z ∈ Int.range 0 (ctl.zTop + 1), ∃ sheet, ctl.sheetAt z = some sheet := by
    intro z hmem
    rw [Int.mem_range_iff] at hmem
    exact hz z hmem.1 (Int.lt_add_one_iff.mp hmem.2)
  have hround : ∀ v, ∀ a ∈ ctl.accesses SHEET.whole 0 ctl.zTop, vramRound ctl v a = _ :=
    fun v a ha => hd.vramRound_eq ha (hrange a ha) v
  constructor
  · obtain ⟨v, hv, hspec⟩ := foldlM_stores hround ctl.vram
    exact ⟨v, by rw [sheetUpdateAll_eq_rounds hz', hv, Option.map_some], hspec⟩
  · obtain ⟨v, hv, hspec⟩ := foldlM_stores
      (fun v a ha => hround v a (mem_of_mem_filter ha)) ctl.vram
    refine ⟨v, ?_, hspec⟩
    rw [sheetUpdateWithScreenxy_eq_rounds _ _ hz', if_pos rfl, hd.accesses_screen, hv,
      Option.map_some]

end Redraw

/-- **`sheet_update_all` redraws the screen like `sheet_update_with_screenxy`**, and touches no
`zMap` or `vram` outside it, iff every access is harmless. -/
theorem sheetUpdateAll_eq_iff (hd : Drawable ctl)
    (hz : ∀ z, 0 ≤ z → z ≤ ctl.zTop → ∃ sheet, ctl.sheetAt z = some sheet) :
    ((∃ v, sheetUpdateAll ctl = some { ctl with vram := v } ∧
        sheetUpdateWithScreenxy ctl ⟨0, 0, ctl.xsize, ctl.ysize⟩ 0 (-1) =
          some { ctl with vram := v }) ∧
      ∀ a ∈ ctl.accesses SHEET.whole 0 ctl.zTop,
        0 ≤ a.screenIndex ctl ∧ a.screenIndex ctl < ctl.xsize * ctl.ysize) ↔
    ∀ a ∈ ctl.accesses SHEET.whole 0 ctl.zTop, a.Harmless ctl := by
  constructor
  · rintro ⟨⟨v, hall, hscreen⟩, hrange⟩ a ha
    refine ⟨hrange a ha, fun hname hlast => ?_⟩
    obtain ⟨⟨v₁, hv₁, hspec₁⟩, v₂, hv₂, hspec₂⟩ := hd.redraws hz hrange
    have h₁ : v = v₁ := congrArg SHTCTL.vram (Option.some.inj (hall.symm.trans hv₁))
    have h₂ : v = v₂ := congrArg SHTCTL.vram (Option.some.inj (hscreen.symm.trans hv₂))
    have hlast' := SHTCTL.drawnLast_of_last ha (fun b hb => (hrange b hb).1)
      (decide_eq_true hname) hlast
    have hdue := hd.drawn_screen ha hrange (decide_eq_true hname)
    rw [← hspec₂, ← h₂, h₁, hspec₁, hlast', Option.map_some, Option.getD_some] at hdue
    rw [hd.pixel_eq ha, hdue]
  · intro hharm
    have hrange := fun a ha => (hharm a ha).1
    obtain ⟨⟨v₁, hv₁, hspec₁⟩, v₂, hv₂, hspec₂⟩ := hd.redraws hz hrange
    have heq : v₁ = v₂ := by
      funext i
      rw [hspec₁, hspec₂]
      cases htop : ctl.drawnLast (ctl.accesses SHEET.whole 0 ctl.zTop) i with
      | none =>
        -- no access draws here, on the screen or not
        have hnone : ctl.drawnLast ((ctl.accesses SHEET.whole 0 ctl.zTop).filter fun a =>
            decide (ctl.OnScreen a.x a.y)) i = none :=
          topmost_eq_none_iff.mpr fun a ha =>
            topmost_eq_none_iff.mp htop a (mem_of_mem_filter ha)
        rw [hnone]
      | some a =>
        obtain ⟨ha, hcov⟩ := topmost_mem htop
        rw [Bool.and_eq_true, decide_eq_true_eq] at hcov
        obtain ⟨hname, rfl⟩ := hcov
        have hcolor := (hharm a ha).2 (of_decide_eq_true hname) (SHTCTL.last_of_drawnLast htop)
        rw [hd.pixel_eq ha, Option.some.injEq] at hcolor
        rw [hd.drawn_screen ha hrange hname, ← hcolor, Option.map_some, Option.getD_some]
    exact ⟨⟨v₁, hv₁, heq ▸ hv₂⟩, hrange⟩

/-- A window wider than the screen. The pixel past the end of its first row is taken for the first
of its second row, which is drawn after it, and the other one for a pixel of the desktop. -/
theorem sheetUpdateAll_eq_iff_wide : ∃ ctl,
    sheetMachine.run (shtctlInit (fun _ => 0) 2 3)
      [.alloc, .setbuf 0 #[9, 9, 9, 9, 9, 9] 2 3 (-1), .alloc,
        .setbuf 1 #[1, 2, 3, 4, 5, 6] 3 2 (-1), .updown 0 0, .updown 1 1] = some ctl ∧
    ∃ v, sheetUpdateAll ctl = some { ctl with vram := v } ∧
      sheetUpdateWithScreenxy ctl ⟨0, 0, ctl.xsize, ctl.ysize⟩ 0 (-1) =
        some { ctl with vram := v } := by
  have hex : ∃ ctl, sheetMachine.run (shtctlInit (fun _ => 0) 2 3)
      [.alloc, .setbuf 0 #[9, 9, 9, 9, 9, 9] 2 3 (-1), .alloc,
        .setbuf 1 #[1, 2, 3, 4, 5, 6] 3 2 (-1), .updown 0 0, .updown 1 1] = some ctl ∧
      Drawable ctl ∧ (∀ z, 0 ≤ z → z ≤ ctl.zTop → (ctl.sheetAt z).isSome) ∧
      ∀ a ∈ ctl.accesses SHEET.whole 0 ctl.zTop, a.Harmless ctl :=
    Machine.exists_run_of_any (by decide +kernel)
  obtain ⟨ctl, hrun, hd, hz, hharm⟩ := hex
  exact ⟨ctl, hrun, ((sheetUpdateAll_eq_iff hd fun z h₁ h₂ =>
    Option.isSome_iff_exists.mp (hz z h₁ h₂)).mpr hharm).1⟩

/-- A window as wide as the screen and one pixel more, moved left by one: `sheet_update_all` draws
the left end of its second row over the right end of the first. -/
theorem sheetUpdateAll_wraps : ∃ ctl,
    sheetMachine.run (shtctlInit (fun _ => 0) 2 3)
      [.alloc, .setbuf 0 #[9, 9, 9, 9, 9, 9] 2 3 (-1), .alloc,
        .setbuf 1 #[1, 2, 3, 4, 5, 6] 3 2 (-1), .slide 1 (-1) 1, .updown 0 0, .updown 1 1] =
      some ctl ∧
    (sheetUpdateAll ctl).map (·.vram 3) = some 4 ∧
    (sheetUpdateWithScreenxy ctl ⟨0, 0, 2, 3⟩ 0 (-1)).map (·.vram 3) = some 3 :=
  Machine.exists_run_of_any (by decide +kernel)

end UnagiOs
