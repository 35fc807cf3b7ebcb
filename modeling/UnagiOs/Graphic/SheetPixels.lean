import UnagiOs.Theory.Painter
import UnagiOs.Graphic.SheetStack

/-!
# What the update functions leave on the screen

The two update functions say the same thing at every pixel of the screen: outside
the clipped rectangle nothing changes, and inside it the sheets of the range are
painted from bottom to top.

- `ZmapUpdated`: `zMap` names the topmost sheet of the range that covers the pixel.
- `ScreenUpdated`: `vram` shows the sheet that `zMap` names, if that sheet is in the
  range.
-/

namespace UnagiOs

/-- A pixel of the screen. -/
def SHTCTL.OnScreen (ctl : SHTCTL) (x y : Int) : Prop :=
  (0 ≤ x ∧ x < ctl.xsize) ∧ 0 ≤ y ∧ y < ctl.ysize

instance SHTCTL.decidableOnScreen (ctl : SHTCTL) (x y : Int) : Decidable (ctl.OnScreen x y) :=
  inferInstanceAs (Decidable (_ ∧ _))

instance SHTCTL.decidableForallOnScreen (ctl : SHTCTL) {p : Int → Int → Prop}
    [∀ x y, Decidable (p x y)] : Decidable (∀ x y, ctl.OnScreen x y → p x y) :=
  decidable_of_iff (∀ x ∈ Int.range 0 ctl.xsize, ∀ y ∈ Int.range 0 ctl.ysize, p x y) <| by
    simp only [Int.mem_range_iff]
    exact ⟨fun h x y hxy => h x hxy.1 y hxy.2, fun h x hx y hy => h x y ⟨hx, hy⟩⟩

/-- Its index in `zMap` and `vram`. -/
def SHTCTL.index (ctl : SHTCTL) (x y : Int) : Nat := (ctl.xsize * y + x).toNat

/-- A pixel of the rectangle. -/
def Rect.Contains (r : Rect) (x y : Int) : Prop :=
  (r.xStart ≤ x ∧ x ≤ r.xEnd) ∧ r.yStart ≤ y ∧ y ≤ r.yEnd

instance Rect.decidableContains (r : Rect) (x y : Int) : Decidable (r.Contains x y) :=
  inferInstanceAs (Decidable (_ ∧ _))

namespace SHEET

/-- The sheet lies over the screen pixel `(x, y)`. -/
def Over (s : SHEET) (x y : Int) : Prop :=
  (0 ≤ x - s.xStart ∧ x - s.xStart < s.bufXsize) ∧ 0 ≤ y - s.yStart ∧ y - s.yStart < s.bufYsize

instance decidableOver (s : SHEET) (x y : Int) : Decidable (s.Over x y) :=
  inferInstanceAs (Decidable (_ ∧ _))

/-- The colour of the sheet at a screen pixel. -/
def colorAt (s : SHEET) (x y : Int) : Option UInt8 :=
  if s.Over x y then s.pixel (x - s.xStart) (y - s.yStart) else none

/-- The sheet has a pixel there that is not transparent. -/
def covers (s : SHEET) (x y : Int) : Bool :=
  (s.colorAt x y).any fun color => decide ((color.toNat : Int) ≠ s.colorInvisible)

end SHEET

/-- The topmost sheet of the list that has a pixel there. -/
def SHTCTL.seen (ctl : SHTCTL) (l : List SheetId) (x y : Int) : Option SheetId :=
  topmost (fun t => (ctl.sheet0 t).covers x y) l

/-- `m` is `zMap` with the sheets from height `k` on painted into the rectangle. -/
def ZmapUpdated (ctl : SHTCTL) (l : List SheetId) (r : Rect) (k : Nat) (m : Nat → UInt8) : Prop :=
  ∀ x y, ctl.OnScreen x y → m (ctl.index x y) =
    if (ctl.clip r).Contains x y then
      ((ctl.seen (l.drop k) x y).map fun t => UInt8.ofNat t.val).getD (ctl.zMap (ctl.index x y))
    else ctl.zMap (ctl.index x y)

/-- Where the range of `z` ends: `-1` stands for the top. -/
def rangeEnd (l : List SheetId) (zEnd : Int) : Nat :=
  if zEnd = -1 then l.length else (zEnd + 1).toNat

/-- `v` is `vram` with the sheets from height `k` to `zEnd` drawn into the rectangle
where `zMap` names them. -/
def ScreenUpdated (ctl : SHTCTL) (l : List SheetId) (r : Rect) (k : Nat) (zEnd : Int)
    (v : Nat → UInt8) : Prop :=
  ∀ x y, ctl.OnScreen x y → ∀ i t color, l[i]? = some t →
    (ctl.sheet0 t).colorAt x y = some color → (ctl.zMap (ctl.index x y)).toNat = t.val →
    v (ctl.index x y) =
      if (ctl.clip r).Contains x y ∧ k ≤ i ∧ i < rangeEnd l zEnd then color
      else ctl.vram (ctl.index x y)

variable {ctl : SHTCTL} {l : List SheetId} {s : SHEET} {sheet : SheetId} {r : Rect} {x y : Int}

theorem lt_rangeEnd {n : Nat} {zEnd : Int} (h : n ≤ zEnd) : n < rangeEnd l zEnd := by
  unfold rangeEnd
  split <;> omega

theorem pixelIndex_eq (h : ctl.OnScreen x y) : ctl.pixelIndex x y = some (ctl.index x y) :=
  if_pos (rowMajor_bounds h.1.1 h.1.2 h.2.1 h.2.2)

/-- Different pixels have different indices. -/
theorem index_inj {x' y' : Int} (h : ctl.OnScreen x y) (h' : ctl.OnScreen x' y')
    (heq : ctl.index x y = ctl.index x' y') : x = x' ∧ y = y' := by
  have hb := (rowMajor_bounds h.1.1 h.1.2 h.2.1 h.2.2).1
  have hb' := (rowMajor_bounds h'.1.1 h'.1.2 h'.2.1 h'.2.2).1
  refine rowMajor_inj h.1.1 h.1.2 h'.1.1 h'.1.2 ?_
  simp only [SHTCTL.index] at heq
  omega

theorem SHEET.over_of_covers (h : s.covers x y = true) : s.Over x y := by
  by_contra hn
  simp [SHEET.covers, SHEET.colorAt, hn] at h

theorem SHEET.exists_colorAt (h : s.covers x y = true) : ∃ color, s.colorAt x y = some color := by
  cases hcolor : s.colorAt x y with
  | none => simp [SHEET.covers, hcolor] at h
  | some color => exact ⟨color, rfl⟩

/-- Every pixel of the clipped rectangle is on the screen. -/
theorem Drawable.onScreen (hd : Drawable ctl) (h : (ctl.clip r).Contains x y) :
    ctl.OnScreen x y := by
  obtain ⟨⟨hx, hx'⟩, hy, hy'⟩ := h
  exact ⟨⟨Int.le_trans (clamp_bounds hd.xsize _).1 hx,
      Int.lt_of_le_of_lt hx' (clamp_bounds hd.xsize _).2⟩,
    Int.le_trans (clamp_bounds hd.ysize _).1 hy,
      Int.lt_of_le_of_lt hy' (clamp_bounds hd.ysize _).2⟩

/-- On the screen, a sheet covers only pixels of the rectangle that is redrawn for it. -/
theorem SHEET.contains_of_covers (hxy : ctl.OnScreen x y) (h : s.covers x y = true) :
    (ctl.clip (s.areaAt s.xStart s.yStart)).Contains x y := by
  obtain ⟨hx, hy⟩ := s.over_of_covers h
  obtain ⟨hsx, hsy⟩ := hxy
  exact ⟨⟨clamp_le hsx.1 (by simp only [SHEET.areaAt]; omega),
      le_clamp hsx.2 (by simp only [SHEET.areaAt]; omega)⟩,
    clamp_le hsy.1 (by simp only [SHEET.areaAt]; omega),
    le_clamp hsy.2 (by simp only [SHEET.areaAt]; omega)⟩

/-- The pixels the loops visit are those of the sheet inside the rectangle. -/
theorem SHEET.mem_clip_iff {p : Int × Int} : p ∈ (s.clip r).pixels ↔
    s.Over (s.xStart + p.1) (s.yStart + p.2) ∧ r.Contains (s.xStart + p.1) (s.yStart + p.2) := by
  rw [Rect.mem_pixels]
  simp only [SHEET.clip, SHEET.Over, Rect.Contains]
  constructor
  · rintro ⟨⟨hx, hx'⟩, hy, hy'⟩
    split at hx <;> split at hx' <;> split at hy <;> split at hy' <;> omega
  · rintro ⟨⟨hx, hy⟩, hrx, hry⟩
    refine ⟨⟨?_, ?_⟩, ?_, ?_⟩ <;> split <;> omega

theorem SHEET.colorAt_over {p : Int × Int} (h : s.Over (s.xStart + p.1) (s.yStart + p.2)) :
    s.colorAt (s.xStart + p.1) (s.yStart + p.2) = s.pixel p.1 p.2 := by
  rw [SHEET.colorAt, if_pos h, add_sub_cancel_left, add_sub_cancel_left]

/-! ## One sheet -/

/-- The pixel loop of one sheet, for a body that stores `val` at a pixel where `cond`
holds. -/
theorem Drawable.foldlM_pixels (hd : Drawable ctl)
    {f : (Nat → UInt8) → Int × Int → Option (Nat → UInt8)} (cond : Int → Int → Bool)
    (val : Int → Int → UInt8)
    (hf : ∀ m, ∀ p ∈ (s.clip (ctl.clip r)).pixels,
      f m p = some (if cond (s.xStart + p.1) (s.yStart + p.2) then
        setSlot m (ctl.index (s.xStart + p.1) (s.yStart + p.2))
          (val (s.xStart + p.1) (s.yStart + p.2)) else m)) (m : Nat → UInt8) :
    ∃ m', (s.clip (ctl.clip r)).pixels.foldlM f m = some m' ∧ ∀ x y, ctl.OnScreen x y →
      m' (ctl.index x y) = if (ctl.clip r).Contains x y ∧ s.Over x y ∧ cond x y = true
        then val x y else m (ctl.index x y) := by
  have hon : ∀ p ∈ (s.clip (ctl.clip r)).pixels,
      ctl.OnScreen (s.xStart + p.1) (s.yStart + p.2) :=
    fun p hp => hd.onScreen (SHEET.mem_clip_iff.mp hp).2
  have hslot : ∀ p ∈ (s.clip (ctl.clip r)).pixels, ∀ q ∈ (s.clip (ctl.clip r)).pixels,
      ctl.index (s.xStart + p.1) (s.yStart + p.2) = ctl.index (s.xStart + q.1) (s.yStart + q.2) →
      p = q := by
    intro p hp q hq heq
    obtain ⟨hpx, hpy⟩ := index_inj (hon p hp) (hon q hq) heq
    exact Prod.ext (by omega) (by omega)
  obtain ⟨m', hm', hval, hother⟩ := foldlM_writes hf hslot m
  refine ⟨m', hm', fun x y hxy => ?_⟩
  -- the pixel in the coordinates of the buffer
  have hx : s.xStart + (x - s.xStart) = x := by omega
  have hy : s.yStart + (y - s.yStart) = y := by omega
  split
  next hin =>
    have hmem : (x - s.xStart, y - s.yStart) ∈ (s.clip (ctl.clip r)).pixels := by
      rw [SHEET.mem_clip_iff, hx, hy]
      exact ⟨hin.2.1, hin.1⟩
    have hstored := hval _ hmem
    rw [hx, hy] at hstored
    exact hstored hin.2.2
  next hout =>
    refine hother _ fun p hp hcond heq => hout ?_
    obtain ⟨hpx, hpy⟩ := index_inj (hon p hp) hxy heq
    rw [← hpx, ← hpy]
    exact ⟨(SHEET.mem_clip_iff.mp hp).2, (SHEET.mem_clip_iff.mp hp).1, hcond⟩

/-- The loops over a list of sheets paint it from bottom to top. -/
theorem Drawable.foldlM_list (hd : Drawable ctl)
    {f : SheetId → (Nat → UInt8) → Int × Int → Option (Nat → UInt8)}
    (cond : SheetId → Int → Int → Bool) (val : SheetId → Int → Int → UInt8)
    (hf : ∀ sheet m, ∀ p ∈ ((ctl.sheet0 sheet).clip (ctl.clip r)).pixels,
      f sheet m p = some
        (if cond sheet ((ctl.sheet0 sheet).xStart + p.1) ((ctl.sheet0 sheet).yStart + p.2) then
          setSlot m (ctl.index ((ctl.sheet0 sheet).xStart + p.1) ((ctl.sheet0 sheet).yStart + p.2))
            (val sheet ((ctl.sheet0 sheet).xStart + p.1) ((ctl.sheet0 sheet).yStart + p.2))
        else m)) (l : List SheetId) (m : Nat → UInt8) :
    ∃ m', l.foldlM (fun m sheet =>
        ((ctl.sheet0 sheet).clip (ctl.clip r)).pixels.foldlM (f sheet) m) m = some m' ∧
      ∀ x y, ctl.OnScreen x y → m' (ctl.index x y) =
        if (ctl.clip r).Contains x y then
          ((topmost (fun t => decide ((ctl.sheet0 t).Over x y) && cond t x y) l).map
            (val · x y)).getD (m (ctl.index x y))
        else m (ctl.index x y) := by
  induction l using List.reverseRecOn with
  | nil => exact ⟨m, rfl, fun x y _ => by simp⟩
  | append_singleton l sheet ih =>
    obtain ⟨m₁, hm₁, hspec₁⟩ := ih
    obtain ⟨m₂, hm₂, hspec₂⟩ := hd.foldlM_pixels (cond sheet) (val sheet) (hf sheet) m₁
    refine ⟨m₂, ?_, fun x y hxy => ?_⟩
    · rw [List.foldlM_append, hm₁]
      simpa using hm₂
    · rw [hspec₂ x y hxy, hspec₁ x y hxy, topmost_append, topmost_singleton]
      by_cases hin : (ctl.clip r).Contains x y
      · by_cases hc : (ctl.sheet0 sheet).Over x y ∧ cond sheet x y = true
        · simp [hin, hc.1, hc.2]
        · have hc' : (decide ((ctl.sheet0 sheet).Over x y) && cond sheet x y) = false := by
            simpa using hc
          simp [hin, hc, hc']
      · simp [hin]

/-! ## The stack -/

namespace Layers

/-- A loop over a range of `z` is a loop over the sheets there. -/
theorem foldlM_sheets (h : Layers ctl l) {β : Type} (g : SheetId → β → Option β) (k : Nat)
    {e : Nat} (he : e ≤ l.length) (b : β) :
    (Int.range k e).foldlM (fun b z => do
      let sheet ← ctl.sheetAt z
      g sheet b) b = ((l.take e).drop k).foldlM (fun b sheet => g sheet b) b := by
  induction e with
  | zero =>
    rw [Int.natCast_zero, range_eq_nil (Int.natCast_nonneg k)]
    simp
  | succ e ih =>
    have hget : l[e]? = some l[e] := List.getElem?_eq_getElem he
    by_cases hke : k ≤ e
    · have hsheet : ctl.sheetAt e = some l[e] := by
        rw [sheetAt_natCast (Nat.lt_of_lt_of_le he h.length_le)]
        exact ((Gap.full_iff (Nat.le_refl _)).mp h.slots e _ hget).1
      have hlen : (l.take e).length = e := List.length_take_of_le (Nat.le_of_succ_le he)
      rw [Int.natCast_succ, range_succ_right (Int.ofNat_le.mpr hke), List.foldlM_append,
        ih (Nat.le_of_succ_le he), List.take_add_one, hget, Option.toList_some,
        List.drop_append_of_le_length (by omega), List.foldlM_append]
      simp [hsheet]
    · rw [range_eq_nil (by omega), List.drop_eq_nil_of_le (by rw [List.length_take]; omega)]
      rfl

/-- `sheet_update_zmap` with the sheets from height `e` on left out. -/
theorem updateZmap_take (h : Layers ctl l) (hd : Drawable ctl) (r : Rect) (k : Nat) {e : Nat}
    (he : e ≤ l.length) :
    ∃ m, sheetUpdateZmap { ctl with zTop := (e : Int) - 1 } r k =
        some { ctl with zTop := (e : Int) - 1, zMap := m } ∧
      ZmapUpdated ctl (l.take e) r k m := by
  have hf : ∀ sheet m, ∀ p ∈ ((ctl.sheet0 sheet).clip (ctl.clip r)).pixels,
      zmapPixel ctl sheet m p.1 p.2 = some (if (ctl.sheet0 sheet).covers
          ((ctl.sheet0 sheet).xStart + p.1) ((ctl.sheet0 sheet).yStart + p.2) then
        setSlot m (ctl.index ((ctl.sheet0 sheet).xStart + p.1) ((ctl.sheet0 sheet).yStart + p.2))
          (UInt8.ofNat sheet.val) else m) := by
    intro sheet m p hp
    obtain ⟨hover, hin⟩ := SHEET.mem_clip_iff.mp hp
    obtain ⟨color, hcolor⟩ := (hd.pixel hp).1
    simp only [zmapPixel, hcolor, pixelIndex_eq (hd.onScreen hin), SHEET.covers,
      SHEET.colorAt_over hover, Option.bind_eq_bind, Option.bind_some, Option.any_some,
      decide_eq_true_eq]
    split <;> rfl
  obtain ⟨m, hm, hspec⟩ := hd.foldlM_list (fun t x y => (ctl.sheet0 t).covers x y)
    (fun t _ _ => UInt8.ofNat t.val) hf ((l.take e).drop k) ctl.zMap
  refine ⟨m, ?_, fun x y hxy => ?_⟩
  · have hloop := h.foldlM_sheets (fun sheet m =>
      ((ctl.sheet0 sheet).clip (ctl.clip r)).pixels.foldlM
        (fun m p => zmapPixel ctl sheet m p.1 p.2) m) k he ctl.zMap
    rw [hm] at hloop
    rw [sheetUpdateZmap, Int.sub_add_cancel]
    exact congrArg (Option.bind · _) hloop
  · rw [hspec x y hxy]
    have hcov : ∀ t, (decide ((ctl.sheet0 t).Over x y) && (ctl.sheet0 t).covers x y) =
        (ctl.sheet0 t).covers x y := by
      intro t
      by_cases hc : (ctl.sheet0 t).covers x y
      · simp [hc, SHEET.over_of_covers hc]
      · simp [hc]
    simp only [hcov, SHTCTL.seen]

/-- **`sheet_update_zmap`** paints the stack from `zStart` on. -/
theorem updateZmap_spec (h : Layers ctl l) (hd : Drawable ctl) (r : Rect) (k : Nat) :
    ∃ m, sheetUpdateZmap ctl r k = some { ctl with zMap := m } ∧ ZmapUpdated ctl l r k m := by
  have htop : (l.length : Int) - 1 = ctl.zTop := by
    have := h.top
    omega
  have hspec := h.updateZmap_take hd r k (Nat.le_refl _)
  rwa [List.take_length, htop] at hspec

/-- **`sheet_update_with_screenxy`** draws the sheets of the range. -/
theorem updateScreen_spec (h : Layers ctl l) (hd : Drawable ctl) (r : Rect) (k : Nat) (zEnd : Int)
    (hend : -1 ≤ zEnd) (hend' : zEnd < l.length) :
    ∃ v, sheetUpdateWithScreenxy ctl r k zEnd = some { ctl with vram := v } ∧
      ScreenUpdated ctl l r k zEnd v := by
  -- inside the clipped rectangle neither array is left
  have hf : ∀ sheet v, ∀ p ∈ ((ctl.sheet0 sheet).clip (ctl.clip r)).pixels,
      vramPixel ctl sheet v p.1 p.2 = some
        (if decide ((ctl.zMap (ctl.index ((ctl.sheet0 sheet).xStart + p.1)
            ((ctl.sheet0 sheet).yStart + p.2))).toNat = sheet.val) then
          setSlot v (ctl.index ((ctl.sheet0 sheet).xStart + p.1) ((ctl.sheet0 sheet).yStart + p.2))
            (((ctl.sheet0 sheet).colorAt ((ctl.sheet0 sheet).xStart + p.1)
              ((ctl.sheet0 sheet).yStart + p.2)).getD 0)
        else v) := by
    intro sheet v p hp
    obtain ⟨hover, hin⟩ := SHEET.mem_clip_iff.mp hp
    obtain ⟨color, hcolor⟩ := (hd.pixel hp).1
    simp only [vramPixel, hcolor, pixelIndex_eq (hd.onScreen hin), SHEET.colorAt_over hover,
      Option.bind_eq_bind, Option.bind_some, Option.getD_some, decide_eq_true_eq]
  obtain ⟨v, hv, hspec⟩ := hd.foldlM_list
    (fun t x y => decide ((ctl.zMap (ctl.index x y)).toNat = t.val))
    (fun t x y => ((ctl.sheet0 t).colorAt x y).getD 0) hf
    ((l.take (rangeEnd l zEnd)).drop k) ctl.vram
  have hlen : rangeEnd l zEnd ≤ l.length := by
    unfold rangeEnd
    split <;> omega
  have hrange : (if zEnd = -1 then ctl.zTop else zEnd) + 1 = rangeEnd l zEnd := by
    unfold rangeEnd
    split
    · exact h.top
    · omega
  refine ⟨v, ?_, fun x y hxy i t color hi hcolor hz => ?_⟩
  · have hloop := h.foldlM_sheets (fun sheet v =>
      ((ctl.sheet0 sheet).clip (ctl.clip r)).pixels.foldlM
        (fun v p => vramPixel ctl sheet v p.1 p.2) v) k hlen ctl.vram
    rw [hv] at hloop
    simp only [sheetUpdateWithScreenxy, hrange]
    exact congrArg (Option.bind · _) hloop
  · have hover : (ctl.sheet0 t).Over x y := by
      by_contra hn
      rw [SHEET.colorAt, if_neg hn] at hcolor
      cases hcolor
    -- `zMap` names one sheet, so at most one writes the pixel
    have htop : topmost (fun t => decide ((ctl.sheet0 t).Over x y) &&
          decide ((ctl.zMap (ctl.index x y)).toNat = t.val)) ((l.take (rangeEnd l zEnd)).drop k) =
        if t ∈ (l.take (rangeEnd l zEnd)).drop k then some t else none := by
      refine topmost_unique (fun t' _ ht' => Fin.ext ?_) (by simp [hover, hz])
      simp only [Bool.and_eq_true, decide_eq_true_eq] at ht'
      omega
    rw [hspec x y hxy, htop]
    simp only [mem_segment_iff h.nodup hi]
    by_cases hin : (ctl.clip r).Contains x y
    · by_cases hki : k ≤ i ∧ i < rangeEnd l zEnd
      · simp [hin, hki, hcolor]
      · simp [hin, hki]
    · simp [hin]

end Layers

end UnagiOs
