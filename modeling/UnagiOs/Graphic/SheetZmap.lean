import UnagiOs.Graphic.SheetPicture

/-!
# zMap names the topmost sheet

After every orderly history of calls, `zMap` holds at each pixel that some shown sheet
covers the index of the topmost sheet that does (`zmap_names_topmost`). Every call
repaints only a rectangle, and only from some height on: what is left out is right
already, since moving a sheet does not show where the sheet does not cover.
-/

namespace UnagiOs

/-- `sheets[z]` is `s`, it has an opaque pixel at `(x, y)`, and no sheet above it has. -/
def SHTCTL.TopAt (ctl : SHTCTL) (x y : Int) (s : SheetId) (z : Int) : Prop :=
  ctl.sheetAt z = some s ∧ (ctl.sheet0 s).covers x y = true ∧
    ∀ z' ∈ Int.range (z + 1) (ctl.zTop + 1), ∀ t ∈ ctl.sheetAt z', (ctl.sheet0 t).covers x y = false

/-- `s` is the topmost of the shown sheets with an opaque pixel at `(x, y)`. -/
def SHTCTL.TopmostAt (ctl : SHTCTL) (x y : Int) (s : SheetId) : Prop :=
  ∃ z ∈ Int.range 0 (ctl.zTop + 1), ctl.TopAt x y s z

instance SHTCTL.decidableTopAt (ctl : SHTCTL) (x y : Int) (s : SheetId) (z : Int) :
    Decidable (ctl.TopAt x y s z) :=
  inferInstanceAs (Decidable (_ ∧ _ ∧ _))

instance SHTCTL.decidableTopmostAt (ctl : SHTCTL) (x y : Int) (s : SheetId) :
    Decidable (ctl.TopmostAt x y s) :=
  inferInstanceAs (Decidable (∃ z ∈ Int.range 0 (ctl.zTop + 1), ctl.TopAt x y s z))

/-- **`zMap` is right**: at every covered pixel it holds the index of the topmost sheet. -/
def ZmapRight (ctl : SHTCTL) : Prop :=
  ∀ x y s, ctl.OnScreen x y → ctl.TopmostAt x y s → (ctl.zMap (ctl.index x y)).toNat = s.val

/-- The same of the list of shown sheets. -/
def Named (ctl : SHTCTL) (l : List SheetId) : Prop :=
  ∀ x y, ctl.OnScreen x y → ∀ t, ctl.seen l x y = some t →
    ctl.zMap (ctl.index x y) = UInt8.ofNat t.val

variable {ctl ctl' c : SHTCTL} {l l' : List SheetId} {s t : SheetId} {k : Nat} {op : SheetOp}
  {x y : Int}

/-- The list has the entries of `sheets`. -/
theorem Layers.getElem?_iff (h : Layers ctl l) {i : Nat} :
    l[i]? = some t ↔ i < l.length ∧ ctl.sheetAt i = some t := by
  have hlen := h.length_le
  constructor
  · intro hi
    have hlt := (List.getElem?_eq_some_iff.mp hi).1
    refine ⟨hlt, ?_⟩
    rw [sheetAt_natCast (by omega)]
    exact ((Gap.full_iff (Nat.le_refl _)).mp h.slots i t hi).1
  · rintro ⟨hlt, hi⟩
    have hget := List.getElem?_eq_getElem hlt
    rw [sheetAt_natCast (by omega),
      ((Gap.full_iff (Nat.le_refl _)).mp h.slots i _ hget).1] at hi
    rw [hget, hi]

/-- The sheet seen at a pixel is the topmost one of the stack. -/
theorem Layers.topmostAt_iff (h : Layers ctl l) :
    ctl.TopmostAt x y s ↔ ctl.seen l x y = some s := by
  have htop := h.top
  constructor
  · rintro ⟨z, hz, hs, hcov, habove⟩
    rw [Int.mem_range_iff] at hz
    obtain ⟨i, rfl⟩ := Int.eq_ofNat_of_zero_le hz.1
    refine topmost_of_index (h.getElem?_iff.mpr ⟨by omega, hs⟩) hcov fun j t hij hj => ?_
    obtain ⟨hj, ht⟩ := h.getElem?_iff.mp hj
    exact habove j (Int.mem_range_iff.mpr (by omega)) t ht
  · intro hseen
    obtain ⟨i, hi⟩ := List.getElem?_of_mem (topmost_mem hseen).1
    obtain ⟨hlt, hs⟩ := h.getElem?_iff.mp hi
    refine ⟨i, Int.mem_range_iff.mpr (by omega), hs, (topmost_mem hseen).2, fun z' hz t ht => ?_⟩
    rw [Int.mem_range_iff] at hz
    obtain ⟨j, rfl⟩ := Int.eq_ofNat_of_zero_le (a := z') (by omega)
    have hcov := topmost_above h.nodup hseen hi (j := j) (by omega)
      (h.getElem?_iff.mpr ⟨by omega, ht⟩)
    exact hcov

theorem Named.zmapRight (hn : Named ctl l) (h : Layers ctl l) : ZmapRight ctl := by
  intro x y s hxy hs
  have hlt : s.val < 256 := s.isLt
  rw [hn x y hxy s (h.topmostAt_iff.mp hs)]
  simp [Nat.mod_eq_of_lt hlt]

/-! ## Calls that leave the shown sheets alone -/

namespace SameSeen

variable (h : SameSeen l ctl ctl')

include h

theorem onScreen : ctl'.OnScreen x y ↔ ctl.OnScreen x y := by
  simp only [SHTCTL.OnScreen, h.xsize, h.ysize]

theorem index : ctl'.index x y = ctl.index x y := by
  simp only [SHTCTL.index, h.xsize]

theorem colorAt (ht : t ∈ l) : (ctl'.sheet0 t).colorAt x y = (ctl.sheet0 t).colorAt x y := by
  rw [h.sheet0 t ht]
  rfl

theorem covers (ht : t ∈ l) : (ctl'.sheet0 t).covers x y = (ctl.sheet0 t).covers x y := by
  rw [h.sheet0 t ht]
  rfl

theorem area (ht : t ∈ l) : ctl'.area t = ctl.area t := by
  rw [SHTCTL.area, h.sheet0 t ht]
  rfl

theorem seen : ctl'.seen l x y = ctl.seen l x y := by
  exact topmost_congr fun t ht => h.covers ht

end SameSeen

theorem Named.congr (hn : Named ctl l) (h : SameSeen l ctl ctl') : Named ctl' l := by
  intro x y hxy t ht
  rw [h.seen] at ht
  rw [h.zMap, h.index]
  exact hn x y (h.onScreen.mp hxy) t ht

/-- One byte of the buffer is one pixel. -/
theorem colorAt_setIfInBounds {v : SHEET} {i : Nat} {color : UInt8} :
    SHEET.colorAt { v with buf := v.buf.setIfInBounds i color } x y =
      if i = (v.bufXsize * (y - v.yStart) + (x - v.xStart)).toNat then
        (v.colorAt x y).map fun _ => color
      else v.colorAt x y := by
  have hover : SHEET.Over { v with buf := v.buf.setIfInBounds i color } x y ↔ v.Over x y := Iff.rfl
  simp only [SHEET.colorAt, SHEET.pixel, hover, Array.getElem?_setIfInBounds]
  by_cases hi : i = (v.bufXsize * (y - v.yStart) + (x - v.xStart)).toNat
  · subst hi
    rw [if_pos rfl, if_pos rfl]
    by_cases hv : v.Over x y
    · rw [if_pos hv, if_pos hv]
      by_cases hpos : 0 ≤ v.bufXsize * (y - v.yStart) + (x - v.xStart)
      · rw [if_pos hpos, if_pos hpos]
        split
        next hlt => rw [Array.getElem?_eq_getElem hlt, Option.map_some]
        next hge => rw [Array.getElem?_eq_none (Nat.not_lt.mp hge), Option.map_none]
      · rw [if_neg hpos, if_neg hpos, Option.map_none]
    · rw [if_neg hv, if_neg hv, Option.map_none]
  · simp only [if_neg hi]

/-- A pixel that stays transparent or stays opaque does not change the shape. -/
theorem covers_setIfInBounds {v : SHEET} {i : Nat} {color : UInt8}
    (hkeep : v.KeepsTransparency i color) :
    SHEET.covers { v with buf := v.buf.setIfInBounds i color } x y = v.covers x y := by
  rw [SHEET.covers, SHEET.covers, colorAt_setIfInBounds]
  split
  next hi =>
    cases hold : v.colorAt x y with
    | none => rfl
    | some old =>
      have hbuf : v.buf[i]? = some old := by
        simp only [SHEET.colorAt, SHEET.pixel] at hold
        split at hold <;> [split at hold <;> [rwa [hi]; cases hold]; cases hold]
      simp [hkeep old hbuf]
  next => rfl

/-! ## Calls that repaint -/

/-- Repainting after a sheet has been restacked. -/
theorem Named.restack {z : Int} {m : Nat → UInt8} (hn : Named c l) (hl : l.Nodup)
    (hk : s ∈ (restack l s z).drop k ∨ k = 0)
    (hm : ZmapUpdated c (restack l s z) (c.area s) k m) :
    Named { c with zMap := m } (restack l s z) := by
  intro x y hxy t ht
  refine (hm x y hxy).trans (paint_from ht fun hout => hn x y hxy t ?_)
  -- where nothing is painted, the restacked sheet does not cover
  have hs : (c.sheet0 s).covers x y = false := by
    by_contra hcov
    rw [Bool.not_eq_false] at hcov
    rcases hout with hout | hnone
    · exact hout ((c.sheet0 s).contains_of_covers hxy hcov)
    · rcases hk with hmem | rfl
      · rw [topmost_eq_none_iff.mp hnone s hmem] at hcov
        cases hcov
      · cases ht.symm.trans hnone
  exact (topmost_restack hl hs z).symm.trans ht

/-- Repainting what a sheet has left, and then where it has come to. -/
theorem Named.slide {i : Nat} {m₁ m₂ : Nat → UInt8} {v : SHEET} (hn : Named ctl l)
    (hi : l[i]? = some s) (hc : c = ctl.setSheet s v)
    (hm₁ : ZmapUpdated c l (ctl.area s) 0 m₁)
    (hm₂ : ZmapUpdated { c with zMap := m₁ } l (c.area s) i m₂) :
    Named { c with zMap := m₂ } l := by
  intro x y hxy t ht
  have hmem : s ∈ l.drop i := List.mem_of_getElem? (i := 0) (by rwa [List.getElem?_drop])
  refine (hm₂ x y hxy).trans (paint_from ht fun hout₂ => ?_)
  -- where nothing is painted the second time, the sheet is not any more
  have hs' : (c.sheet0 s).covers x y = false := by
    by_contra hcov
    rw [Bool.not_eq_false] at hcov
    rcases hout₂ with hout | hnone
    · exact hout ((c.sheet0 s).contains_of_covers hxy hcov)
    · rw [topmost_eq_none_iff.mp hnone s hmem] at hcov
      cases hcov
  refine (hm₁ x y hxy).trans (paint_from (k := 0) ht fun hout₁ => ?_)
  have hs : (ctl.sheet0 s).covers x y = false := by
    by_contra hcov
    rw [Bool.not_eq_false] at hcov
    rcases hout₁ with hout | hnone
    · subst hc
      exact hout ((ctl.sheet0 s).contains_of_covers hxy hcov)
    · cases ht.symm.trans hnone
  -- so it is seen neither before nor after
  have hsame : ctl.seen l x y = c.seen l x y := by
    refine topmost_congr fun w _ => ?_
    by_cases hw : w = s
    · rw [hw, hs, hs']
    · rw [hc, SHTCTL.setSheet]
      exact congrArg (SHEET.covers · x y) (if_neg hw).symm
  subst hc
  exact hn x y hxy t (hsame.trans ht)

/-- A sheet that is redrawn is in the range that is repainted, or the whole stack is. -/
theorem Redraw.mem_drop {z zEnd : Int} (h : Redraw l s z k zEnd) :
    s ∈ (restack l s z).drop k ∨ k = 0 := by
  cases h with
  | hide hi hz => exact .inr rfl
  | «show» hs hz =>
    have hrest : l.erase s = l := List.erase_of_not_mem hs
    rw [restack_top (by rw [hrest]; exact hz), hrest]
    exact .inl (mem_drop_insertIdx (Nat.le_refl _))
  | down hi hji =>
    have hrest := length_erase_of_index hi
    rw [restack_natCast (by omega)]
    exact .inl (mem_drop_insertIdx (by omega))
  | up hi hij hj =>
    have hrest := length_erase_of_index hi
    rw [restack_natCast (by omega)]
    exact .inl (mem_drop_insertIdx (by omega))

/-- **Every orderly call keeps `zMap` right.** -/
theorem Named.step (hn : Named ctl l) (hl : l.Nodup) (hstep : SheetStep ctl l op ctl' l') :
    Named ctl' l' := by
  cases hstep with
  | still hsame => exact hn.congr hsame
  | @draw s i color hs hkeep =>
    intro x y hxy t ht
    refine hn x y hxy t (Eq.trans (topmost_congr fun w _ => ?_) ht)
    by_cases hw : w = s
    · subst hw
      simp only [SHTCTL.setSheet, if_pos, covers_setIfInBounds hkeep]
    · simp only [SHTCTL.setSheet, if_neg hw]
  | update hi hv => exact hn
  | @restack s z k zEnd c m v hre hpic hm hv =>
    have harea := (hpic.sameSeen [s]).area List.mem_cons_self
    exact (hn.congr (hpic.sameSeen l)).restack hl hre.mem_drop (harea ▸ hm)
  | slide hi hc hm₁ hm₂ hv₁ hv₂ => exact hn.slide hi hc hm₁ hm₂
  | @free s i c _ m v hi hsame hm hv hsame' =>
    have harea := hsame.area (List.mem_of_getElem? hi)
    have hn' : Named { c with zMap := m, vram := v } (UnagiOs.restack l s (-1)) :=
      (hn.congr hsame).restack hl (.inr rfl) (harea ▸ hm)
    exact hn'.congr hsame'

/-- **`zMap` names the topmost sheet.** Sheets of any size and shape, anywhere on or off
the screen: in every state of every orderly history, `zMap` holds at each covered pixel
the index of the topmost sheet that covers it. No call is stuck. -/
theorem zmap_names_topmost (vram : Nat → UInt8) {xsize ysize : Int} (hx : 0 < xsize)
    (hy : 0 < ysize) (ops : List SheetOp)
    (hops : sheetMachine.AllSteps (fun ctl op => op.Legal ctl ∧ op.Orderly ctl)
      (shtctlInit vram xsize ysize) ops) :
    sheetMachine.AllStates ZmapRight (shtctlInit vram xsize ysize) ops := by
  have hstart := shtctlInit_layers vram xsize ysize
  have hdraw : Drawable (shtctlInit vram xsize ysize) := ⟨hx, hy, fun _ => Int.le_refl 0⟩
  have hnamed : Named (shtctlInit vram xsize ysize) [] := fun _ _ _ t ht => by cases ht
  refine Machine.always_of_inv
    (fun ctl (h : ∃ l, Layers ctl l ∧ Drawable ctl ∧ Named ctl l) => ?_) ?_
    ⟨[], hstart, hdraw, hnamed⟩ hops
  · obtain ⟨l, h, -, hn⟩ := h
    exact hn.zmapRight h
  · rintro ctl op ⟨l, h, hd, hn⟩ ⟨hop, horderly⟩
    obtain ⟨ctl', l', heq, h', hd', hstep⟩ := h.sheetStep hd hop horderly
    exact ⟨ctl', heq, trivial, l', h', hd', hn.step h.nodup hstep⟩

/-- A desktop, a mouse with a transparent pixel and a window that is half off the screen:
they are shown, the window is moved below the mouse and back, slid and closed. -/
theorem zmap_names_topmost_initialize :
    sheetMachine.AllStates ZmapRight (shtctlInit (fun _ => 0) 4 2)
      [.alloc, .setbuf 0 #[1, 1, 1, 1, 1, 1, 1, 1] 4 2 (-1), .slide 0 0 0,
        .alloc, .setbuf 1 #[99, 7] 1 2 99, .slide 1 2 0,
        .alloc, .setbuf 2 #[8, 8] 2 1 (-1), .slide 2 3 0,
        .updown 0 0, .updown 2 1, .updown 1 2,
        .updown 2 2, .updown 2 1, .slide 2 1 1, .draw 1 1 5, .updateSheet 1 ⟨0, 1, 0, 1⟩,
        .updown 1 (-1), .free 2] :=
  zmap_names_topmost (fun _ => 0) (by decide) (by decide) _ (by decide +kernel)

end UnagiOs
