import Mathlib.Data.FinEnum
import UnagiOs.Graphic.SheetZmap

/-!
# vram shows the topmost sheet

A call redraws the sheets of a range of `z`. If the screen shows the topmost sheet
everywhere before the call, it does so after it, for every call but one: a sheet that
is moved down, from `z` to `zNew`, is now below the sheets of `zNew + 1 .. z`, and the
last of these is not redrawn. `vram_right_iff` is the exact condition.
-/

namespace UnagiOs

open List

/-- If `s` is the topmost sheet at the pixel, the pixel has its colour. -/
def SHTCTL.ShowsTop (ctl : SHTCTL) (x y : Int) (s : SheetId) : Prop :=
  ctl.TopmostAt x y s → (ctl.sheet0 s).colorAt x y = some (ctl.vram (ctl.index x y))

/-- **The screen is right**: every covered pixel has the colour of the topmost sheet. -/
def VramRight (ctl : SHTCTL) : Prop := ∀ x y, ctl.OnScreen x y → ∀ s, ctl.ShowsTop x y s

instance SHTCTL.decidableShowsTop (ctl : SHTCTL) (x y : Int) (s : SheetId) :
    Decidable (ctl.ShowsTop x y s) :=
  inferInstanceAs (Decidable (_ → _))

/-- Only the sheets of the stack need to be looked at. -/
theorem vramRight_iff_stack (ctl : SHTCTL) : VramRight ctl ↔ ∀ x y, ctl.OnScreen x y →
    ∀ z ∈ Int.range 0 (ctl.zTop + 1), ∀ s ∈ ctl.sheetAt z, ctl.ShowsTop x y s := by
  refine forall₃_congr fun x y _ => ⟨fun h _ _ s _ => h s, fun h s hs => ?_⟩
  obtain ⟨z, hz, hslot, -⟩ := id hs
  exact h z hz s hslot hs

instance decidableVramRight (ctl : SHTCTL) : Decidable (VramRight ctl) :=
  @decidable_of_iff' _ _ (vramRight_iff_stack ctl) ctl.decidableForallOnScreen

/-- The same of the list of shown sheets, but for the pixels of `s` in a rectangle of its
buffer. -/
def ShownBut (s : SheetId) (r : Rect) (ctl : SHTCTL) (l : List SheetId) : Prop :=
  ∀ x y, ctl.OnScreen x y → ∀ t, ctl.seen l x y = some t →
    (t = s ∧ r.Contains (x - (ctl.sheet0 s).xStart) (y - (ctl.sheet0 s).yStart)) ∨
      (ctl.sheet0 t).colorAt x y = some (ctl.vram (ctl.index x y))

/-- The same of the list of shown sheets. -/
def Shown (ctl : SHTCTL) (l : List SheetId) : Prop :=
  ∀ x y, ctl.OnScreen x y → ∀ t, ctl.seen l x y = some t →
    (ctl.sheet0 t).colorAt x y = some (ctl.vram (ctl.index x y))

variable {ctl ctl' c : SHTCTL} {l l' : List SheetId} {s t : SheetId} {k i : Nat} {op : SheetOp}
  {x y z zEnd : Int} {r : Rect} {v : Nat → UInt8}

theorem Layers.vramRight_iff (h : Layers ctl l) : VramRight ctl ↔ Shown ctl l := by
  constructor
  · intro hv x y hxy t ht
    exact hv x y hxy t (h.topmostAt_iff.mpr ht)
  · intro hv x y hxy s hs
    exact hv x y hxy s (h.topmostAt_iff.mp hs)

theorem Shown.congr (hs : Shown ctl l) (h : SameSeen l ctl ctl') : Shown ctl' l := by
  intro x y hxy t ht
  rw [h.seen] at ht
  rw [h.colorAt (topmost_mem ht).1, h.vram, h.index]
  exact hs x y (h.onScreen.mp hxy) t ht

/-! ## One redrawing -/

namespace ScreenUpdated

variable (hv : ScreenUpdated ctl l r k zEnd v) (hn : Named ctl l) (hxy : ctl.OnScreen x y)
  (ht : ctl.seen l x y = some t) (hi : l[i]? = some t)

include hv hn hxy ht hi

theorem apply : ∃ color, (ctl.sheet0 t).colorAt x y = some color ∧
    v (ctl.index x y) = if (ctl.clip r).Contains x y ∧ k ≤ i ∧ i < rangeEnd l zEnd then color
      else ctl.vram (ctl.index x y) := by
  obtain ⟨color, hcolor⟩ := SHEET.exists_colorAt (topmost_mem ht).2
  have hlt : t.val < 256 := t.isLt
  refine ⟨color, hcolor, hv x y hxy i t color hi hcolor ?_⟩
  rw [hn x y hxy t ht]
  simp [Nat.mod_eq_of_lt hlt]

/-- The topmost sheet shows if it is redrawn or was there before. -/
theorem shows (hold : ¬ ((ctl.clip r).Contains x y ∧ k ≤ i ∧ i < rangeEnd l zEnd) →
      (ctl.sheet0 t).colorAt x y = some (ctl.vram (ctl.index x y))) :
    (ctl.sheet0 t).colorAt x y = some (v (ctl.index x y)) := by
  obtain ⟨color, hcolor, hval⟩ := apply hv hn hxy ht hi
  rw [hval]
  split
  next => exact hcolor
  next hout => exact hold hout

/-- Outside the range nothing is drawn. -/
theorem keeps (hout : ¬ (k ≤ i ∧ i < rangeEnd l zEnd)) :
    v (ctl.index x y) = ctl.vram (ctl.index x y) := by
  obtain ⟨color, -, hval⟩ := apply hv hn hxy ht hi
  rw [hval, if_neg fun hin => hout hin.2]

end ScreenUpdated

/-! ## The calls -/

/-- Wherever `s` is seen, the sheet right below it is transparent or has its colour. -/
def SHTCTL.SameBelow (ctl : SHTCTL) (s : SheetId) : Prop :=
  ∀ x y, ctl.OnScreen x y → ctl.TopmostAt x y s → ∀ t ∈ ctl.sheetAt (ctl.pos s - 1),
    (ctl.sheet0 t).covers x y = true → (ctl.sheet0 t).colorAt x y = (ctl.sheet0 s).colorAt x y

instance SHTCTL.decidableSameBelow (ctl : SHTCTL) (s : SheetId) : Decidable (ctl.SameBelow s) :=
  ctl.decidableForallOnScreen

theorem Layers.below_iff (h : Layers ctl l) (hi : l[i]? = some s) (hpos : 0 < i) :
    ctl.sheetAt (ctl.pos s - 1) = some t ↔ l[i - 1]? = some t := by
  have hlt := (List.getElem?_eq_some_iff.mp hi).1
  rw [h.pos_eq hi, h.getElem?_iff, show (i : Int) - 1 = (i - 1 : Nat) by omega]
  exact (and_iff_right (by omega)).symm

/-- **What is seen after a sheet that covers has been restacked** is redrawn, or was seen
before, or is the sheet right below one that is moved down. -/
theorem Redraw.seen {cov : SheetId → Bool} (hl : l.Nodup) (hre : Redraw l s z k zEnd)
    (hcov : cov s = true) (ht : topmost cov (restack l s z) = some t) :
    ∃ n, (restack l s z)[n]? = some t ∧
      ((k ≤ n ∧ n < rangeEnd (restack l s z) zEnd) ∨ topmost cov l = some t ∨
        ∃ i j : Nat, l[i]? = some s ∧ z = j ∧ j < i ∧ topmost cov l = some s ∧
          l[i - 1]? = some t) := by
  have hrest : (l.erase s).Nodup := hl.erase s
  have hout : s ∉ l.erase s := hl.not_mem_erase
  cases hre with
  | @hide i z hi hz =>
    rw [restack_neg hz] at ht ⊢
    obtain ⟨n, hn⟩ := getElem?_of_mem (topmost_mem ht).1
    have hlt := (List.getElem?_eq_some_iff.mp hn).1
    refine ⟨n, hn, ?_⟩
    by_cases hni : n < i
    · exact .inl ⟨Nat.zero_le n, lt_rangeEnd (by omega)⟩
    · by_cases hi₀ : i = 0
      · subst hi₀
        exact .inl ⟨Nat.zero_le n, hlt⟩
      · refine .inr (.inl ?_)
        rw [← insertIdx_erase_self hl hi]
        exact topmost_insert_below hrest ht hn (Nat.not_lt.mp hni)
  | «show» hs hz =>
    have herase : l.erase s = l := erase_of_not_mem hs
    rw [restack_top (by rw [herase]; exact hz), herase] at ht ⊢
    by_cases hts : t = s
    · subst hts
      exact ⟨l.length, by rw [getElem?_insertIdx_self, if_pos (Nat.le_refl _)],
        .inl ⟨Nat.le_refl _, lt_rangeEnd (Int.le_refl _)⟩⟩
    · obtain ⟨n, hn, hget, -⟩ := topmost_of_insert hl hs (Nat.le_refl _) hcov ht hts
      have hlt := (List.getElem?_eq_some_iff.mp hget).1
      omega
  | @down i _ hi hji =>
    have hlen := length_erase_of_index hi
    rw [restack_natCast (by omega)] at ht ⊢
    by_cases hts : t = s
    · subst hts
      exact ⟨k, by rw [getElem?_insertIdx_self, if_pos (by omega)],
        .inl ⟨Nat.le_refl _, lt_rangeEnd (by omega)⟩⟩
    · obtain ⟨n, hjn, hget, htop⟩ := topmost_of_insert hrest hout (by omega) hcov ht hts
      refine ⟨n + 1, by rwa [getElem?_insertIdx_of_gt (by omega), Nat.add_sub_cancel], ?_⟩
      rcases Nat.lt_trichotomy (n + 1) i with hlt | heq | hgt
      · exact .inl ⟨by omega, lt_rangeEnd (by omega)⟩
      · -- the sheet that is not redrawn
        refine .inr (.inr ⟨i, k, hi, rfl, hji, ?_, ?_⟩)
        · rw [← insertIdx_erase_self hl hi]
          exact topmost_insert_above hrest htop hget (by omega) (by omega) hcov
        · rw [← insertIdx_erase_self hl hi, getElem?_insertIdx_of_lt (by omega), ← heq]
          exact hget
      · refine .inr (.inl ?_)
        rw [← insertIdx_erase_self hl hi]
        exact topmost_insert_below hrest htop hget (by omega)
  | @up i _ hi hij hj =>
    have hlen := length_erase_of_index hi
    rw [restack_natCast (by omega)] at ht ⊢
    by_cases hts : t = s
    · subst hts
      exact ⟨k, by rw [getElem?_insertIdx_self, if_pos (by omega)],
        .inl ⟨Nat.le_refl _, lt_rangeEnd (by omega)⟩⟩
    · obtain ⟨n, hjn, hget, htop⟩ := topmost_of_insert hrest hout (by omega) hcov ht hts
      refine ⟨n + 1, by rwa [getElem?_insertIdx_of_gt (by omega), Nat.add_sub_cancel],
        .inr (.inl ?_)⟩
      rw [← insertIdx_erase_self hl hi]
      exact topmost_insert_below hrest htop hget (by omega)

/-- Redrawing after a sheet has been restacked. -/
theorem Shown.restack {m : Nat → UInt8} (hs : Shown c l) (hl : l.Nodup)
    (hre : Redraw l s z k zEnd) (hn : Named { c with zMap := m } (restack l s z))
    (hv : ScreenUpdated { c with zMap := m } (restack l s z) (c.area s) k zEnd v)
    (hbelow : ∀ i j : Nat, l[i]? = some s → z = j → j < i → ∀ x y t, c.OnScreen x y →
      c.seen l x y = some s → l[i - 1]? = some t → (c.sheet0 t).covers x y = true →
        (c.sheet0 t).colorAt x y = (c.sheet0 s).colorAt x y) :
    Shown { c with zMap := m, vram := v } (restack l s z) := by
  intro x y hxy t ht
  by_cases hcov : (c.sheet0 s).covers x y = true
  · have hin := (c.sheet0 s).contains_of_covers hxy hcov
    obtain ⟨n, hn', hseen⟩ := hre.seen hl hcov ht
    refine hv.shows hn hxy ht hn' fun hout => ?_
    rcases hseen with hredrawn | hsame | ⟨i, j, hi, hz, hji, hs', hprev⟩
    · exact absurd ⟨hin, hredrawn⟩ hout
    · exact hs x y hxy t hsame
    · exact (hbelow i j hi hz hji x y t hxy hs' hprev (topmost_mem ht).2).trans (hs x y hxy s hs')
  · -- where the sheet does not cover, the same sheet is seen as before
    obtain ⟨i, hi⟩ := getElem?_of_mem (topmost_mem ht).1
    refine hv.shows hn hxy ht hi fun _ => hs x y hxy t ?_
    exact (topmost_restack hl (Bool.eq_false_of_not_eq_true hcov) z).symm.trans ht

/-- Redrawing what a sheet has left, and then the sheet. -/
theorem Shown.slide {m : Nat → UInt8} {v₁ v₂ : Nat → UInt8} {w : SHEET} (hs : Shown ctl l)
    (hl : l.Nodup) (hi : l[i]? = some s) (hc : c = ctl.setSheet s w)
    (hn : Named { c with zMap := m } l)
    (hv₁ : ScreenUpdated { c with zMap := m } l (ctl.area s) 0 (i - 1) v₁)
    (hv₂ : ScreenUpdated { c with zMap := m, vram := v₁ } l (c.area s) i i v₂) :
    Shown { c with zMap := m, vram := v₂ } l := by
  intro x y hxy t ht
  obtain ⟨n, hget⟩ := getElem?_of_mem (topmost_mem ht).1
  have hlt := (List.getElem?_eq_some_iff.mp hget).1
  refine hv₂.shows hn hxy ht hget fun hout₂ => hv₁.shows hn hxy ht hget fun hout₁ => ?_
  -- the sheet itself is redrawn wherever it is seen
  have hni : n ≠ i := by
    rintro rfl
    cases hi.symm.trans hget
    exact hout₂ ⟨(c.sheet0 s).contains_of_covers hxy (topmost_mem ht).2, Nat.le_refl _,
      lt_rangeEnd (Int.le_refl _)⟩
  have hother : ∀ u, u ≠ s → c.sheet0 u = ctl.sheet0 u := fun u hu => by
    rw [hc]
    exact if_neg hu
  have hts : t ≠ s := ne_of_index_ne hl hi hget hni
  -- the others were seen before, unless the sheet covered them
  have hseen : ctl.seen l x y = some t := by
    refine topmost_of_index hget ?_ fun j u hj hu => ?_
    · exact hother t hts ▸ (topmost_mem ht).2
    · by_cases hus : u = s
      · subst hus
        by_contra hcov
        rw [Bool.not_eq_false] at hcov
        have hij : j = i := by
          by_contra hij
          exact ne_of_index_ne hl hi hu hij rfl
        subst hc
        exact hout₁ ⟨(ctl.sheet0 u).contains_of_covers hxy hcov, Nat.zero_le n,
          lt_rangeEnd (by omega)⟩
      · have hcov := topmost_above hl ht hget hj hu
        exact hother u hus ▸ hcov
  subst hc
  exact (congrArg (SHEET.colorAt · x y) (hother t hts)).trans (hs x y hxy t hseen)

/-- No pixel of a shown sheet is drawn without an update. -/
def SheetOp.Clean (ctl : SHTCTL) : SheetOp → Prop
  | .draw s _ _ => ctl.pos s < 0
  | _ => True

/-- A sheet is moved down only where it hides nothing else right below it. -/
def SheetOp.Uncovers (ctl : SHTCTL) : SheetOp → Prop
  | .updown s zNew => 0 ≤ zNew → zNew < ctl.pos s → ctl.SameBelow s
  | _ => True

instance SheetOp.decidableClean (ctl : SHTCTL) : ∀ op : SheetOp, Decidable (op.Clean ctl)
  | .draw s _ _ => inferInstanceAs (Decidable (ctl.pos s < 0))
  | .alloc | .setbuf _ _ _ _ _ | .textboxAlloc _ _ _ _ _ _ _ _ | .updateSheet _ _ | .updown _ _
  | .slide _ _ _ | .free _ => .isTrue trivial

instance SheetOp.decidableUncovers (ctl : SHTCTL) : ∀ op : SheetOp, Decidable (op.Uncovers ctl)
  | .updown s zNew => inferInstanceAs (Decidable (0 ≤ zNew → zNew < ctl.pos s → ctl.SameBelow s))
  | .alloc | .setbuf _ _ _ _ _ | .textboxAlloc _ _ _ _ _ _ _ _ | .updateSheet _ _ | .draw _ _ _
  | .slide _ _ _ | .free _ => .isTrue trivial

/-- **Every call that uncovers nothing keeps the screen right.** -/
theorem Shown.step (hs : Shown ctl l) (h : Layers ctl l) (hn : Named ctl l) (hn' : Named ctl' l')
    (hstep : SheetStep ctl l op ctl' l') (hop : op.Legal ctl) (hclean : op.Clean ctl)
    (hunc : op.Uncovers ctl) : Shown ctl' l' := by
  cases hstep with
  | still hsame => exact hs.congr hsame
  | draw hmem hkeep => exact absurd hclean (Int.not_lt.mpr ((h.mem_iff hop.1).mp hmem))
  | update hi hv =>
    intro x y hxy t ht
    obtain ⟨n, hget⟩ := getElem?_of_mem (topmost_mem ht).1
    exact hv.shows hn hxy ht hget fun _ => hs x y hxy t ht
  | @restack s z k zEnd c m v hre hpic hm hv =>
    have hsame := hpic.sameSeen l
    have hlook := hpic.sameSeen [s]
    have harea := hlook.area mem_cons_self
    refine (hs.congr hsame).restack h.nodup hre hn' (harea ▸ hv) ?_
    intro i j hi hz hji x y t hxy hseen hprev hcov
    have hpos := h.pos_eq hi
    have hslot := (h.below_iff hi (by omega)).mpr hprev
    have ht := mem_of_getElem? hprev
    rw [hsame.seen] at hseen
    rw [hsame.covers ht] at hcov
    rw [hsame.colorAt ht, hlook.colorAt mem_cons_self]
    exact hunc (by omega) (by omega) x y (hsame.onScreen.mp hxy) (h.topmostAt_iff.mpr hseen) t
      hslot hcov
  | slide hi hc hm₁ hm₂ hv₁ hv₂ => exact hs.slide h.nodup hi hc hn' hv₁ hv₂
  | @free s i c _ m v hi hsame hm hv hsame' =>
    have harea := hsame.area (mem_of_getElem? hi)
    have hn₁ : Named { c with zMap := m } (UnagiOs.restack l s (-1)) :=
      (hn.congr hsame).restack h.nodup (.inr rfl) (harea ▸ hm)
    refine Shown.congr ((hs.congr hsame).restack h.nodup (.hide hi (by decide)) hn₁ (harea ▸ hv) ?_)
      hsame'
    intro i j hi hz
    omega

/-- **A sheet that is moved down** leaves the one right below it undrawn: if the screen is
right afterwards, the two had the same colour wherever the upper one was seen. -/
theorem Layers.sameBelow_of_down {j : Nat} (h : Layers ctl l) (hd : Drawable ctl)
    (hn : Named ctl l) (hs : Shown ctl l) (hu : (ctl.sheet0 s).flags = .inUse)
    (hi : l[i]? = some s) (hji : j < i) (heq : sheetUpdown ctl s j = some ctl')
    (hs' : Shown ctl' (restack l s j)) : ctl.SameBelow s := by
  have hpos := h.pos_eq hi
  have hlen := length_erase_of_index hi
  have hrest : (l.erase s).Nodup := h.nodup.erase s
  have hnorm : ctl.normalize j = j := by
    rw [h.normalize_eq, if_neg (by omega), if_pos (by omega)]
  obtain ⟨c, hl, hpic, heq₁⟩ := h.updown_down hu hi hji hnorm
  obtain ⟨m, v, heq₂, hm, hv⟩ := hl.refresh_spec (hpic.drawable hd) (ctl.area s) j
    (i - 1) (by omega) (by rw [length_restack (by omega)]; omega)
  cases heq.symm.trans (heq₁.trans heq₂)
  have hsame := hpic.sameSeen l
  have harea := (hpic.sameSeen [s]).area mem_cons_self
  have hn' : Named { c with zMap := m } (restack l s j) :=
    (hn.congr hsame).restack h.nodup (Redraw.down hi hji).mem_drop (harea ▸ hm)
  intro x y hxy htop t hslot hcov
  have hseen := h.topmostAt_iff.mp htop
  have hget := (h.below_iff hi (by omega)).mp hslot
  have hget' : (l.erase s)[i - 1]? = some t := by
    rwa [← insertIdx_erase_self h.nodup hi, getElem?_insertIdx_of_lt (by omega)] at hget
  -- without `s`, the sheet below it is the topmost one
  have hbelow : topmost (fun t => (ctl.sheet0 t).covers x y) (l.erase s) = some t := by
    refine topmost_of_index hget' hcov fun n u hnu hu => ?_
    have hu' : l[n + 1]? = some u := by
      rwa [← insertIdx_erase_self h.nodup hi, getElem?_insertIdx_of_gt (by omega),
        Nat.add_sub_cancel]
    have habove := topmost_above h.nodup hseen hi (j := n + 1) (by omega) hu'
    exact habove
  have hseen' : c.seen (restack l s j) x y = some t := by
    rw [(hpic.sameSeen _).seen, restack_natCast (by omega)]
    exact topmost_insert_below hrest hbelow hget' (by omega)
  have hslot' : (restack l s j)[i]? = some t := by
    rwa [restack_natCast (by omega), getElem?_insertIdx_of_gt hji]
  have hxy' : c.OnScreen x y := hsame.onScreen.mpr hxy
  have hend : rangeEnd (restack l s j) (i - 1) = i := by
    unfold rangeEnd
    split <;> omega
  have hkeep := hv.keeps hn' hxy' hseen' hslot' (by omega)
  have hcolor := hs' x y hxy' t hseen'
  have hold := hs x y hxy s hseen
  rw [← hsame.index, ← hsame.vram] at hold
  rw [← hsame.colorAt (mem_of_getElem? hget), hold]
  exact hcolor.trans (congrArg some hkeep)

/-! ## Repainting -/

/-- A pixel of a buffer and its new colour. -/
structure Paint where
  bufX : Int
  bufY : Int
  color : UInt8

/-- The pixel lies in the sheet and in the rectangle; it is opaque and stays opaque. -/
structure SHEET.Paintable (w : SHEET) (r : Rect) (p : Paint) : Prop where
  x : 0 ≤ p.bufX ∧ p.bufX < w.bufXsize
  y : 0 ≤ p.bufY ∧ p.bufY < w.bufYsize
  inside : r.Contains p.bufX p.bufY
  solidOld : ∀ old ∈ w.pixel p.bufX p.bufY, (old.toNat : Int) ≠ w.colorInvisible
  solidNew : (p.color.toNat : Int) ≠ w.colorInvisible

instance SHEET.decidablePaintable (w : SHEET) (r : Rect) (p : Paint) :
    Decidable (w.Paintable r p) :=
  decidable_of_iff ((0 ≤ p.bufX ∧ p.bufX < w.bufXsize) ∧ (0 ≤ p.bufY ∧ p.bufY < w.bufYsize) ∧
      r.Contains p.bufX p.bufY ∧
      (∀ old ∈ w.pixel p.bufX p.bufY, (old.toNat : Int) ≠ w.colorInvisible) ∧
      (p.color.toNat : Int) ≠ w.colorInvisible)
    ⟨fun h => ⟨h.1, h.2.1, h.2.2.1, h.2.2.2.1, h.2.2.2.2⟩,
      fun h => ⟨h.x, h.y, h.inside, h.solidOld, h.solidNew⟩⟩

/-- Where the pixel is in the buffer. -/
def Paint.index (p : Paint) (w : SHEET) : Nat := (w.bufXsize * p.bufY + p.bufX).toNat

/-- Drawing one pixel. -/
def Paint.toOp (p : Paint) (s : SheetId) (w : SHEET) : SheetOp := .draw s (p.index w) p.color

/-- The calls on the screen, and the way the other drivers draw: they change pixels of the
buffer and then call `sheet_update_sheet`. -/
inductive PaintOp where
  | call (op : SheetOp)
  | repaint (sheet : SheetId) (pixels : List Paint) (r : Rect)

def paintMachine : Machine SHTCTL PaintOp where
  step ctl
    | .call op => sheetMachine.step ctl op
    | .repaint s pixels r =>
      sheetMachine.run ctl (pixels.map (·.toOp s (ctl.sheet0 s)) ++ [.updateSheet s r])

/-- The calls are orderly and every drawing is followed by its update. -/
def PaintOp.Legal (ctl : SHTCTL) : PaintOp → Prop
  | .call op => op.Legal ctl ∧ op.Orderly ctl ∧ op.Clean ctl
  | .repaint s pixels r =>
    (ctl.sheet0 s).flags = .inUse ∧ ∀ p ∈ pixels, (ctl.sheet0 s).Paintable r p

/-- A sheet is moved down only where it hides nothing else right below it. -/
def PaintOp.Uncovers (ctl : SHTCTL) : PaintOp → Prop
  | .call op => op.Uncovers ctl
  | .repaint _ _ _ => True

instance PaintOp.decidableLegal (ctl : SHTCTL) : ∀ op : PaintOp, Decidable (op.Legal ctl)
  | .call op => inferInstanceAs (Decidable (op.Legal ctl ∧ op.Orderly ctl ∧ op.Clean ctl))
  | .repaint s pixels r => inferInstanceAs (Decidable
      ((ctl.sheet0 s).flags = .inUse ∧ ∀ p ∈ pixels, (ctl.sheet0 s).Paintable r p))

instance PaintOp.decidableUncovers (ctl : SHTCTL) : ∀ op : PaintOp, Decidable (op.Uncovers ctl)
  | .call op => inferInstanceAs (Decidable (op.Uncovers ctl))
  | .repaint _ _ _ => .isTrue trivial

namespace SHEET.Paintable

variable {w : SHEET} {p q : Paint}

/-- The byte that is drawn. -/
theorem bounds (h : w.Paintable r p) : 0 ≤ w.bufXsize * p.bufY + p.bufX :=
  (rowMajor_bounds h.x.1 h.x.2 h.y.1 h.y.2).1

theorem pixel (h : w.Paintable r p) : w.pixel p.bufX p.bufY = w.buf[p.index w]? :=
  if_pos h.bounds

theorem keepsTransparency (h : w.Paintable r p) : w.KeepsTransparency (p.index w) p.color := by
  intro old hold
  rw [← h.pixel] at hold
  exact ⟨fun heq => absurd heq (h.solidOld old hold), fun heq => absurd heq h.solidNew⟩

/-- Drawing one pixel leaves the others as they are or opaque. -/
theorem draw (h : w.Paintable r p) (hq : w.Paintable r q) :
    SHEET.Paintable { w with buf := w.buf.setIfInBounds (p.index w) p.color } r q := by
  refine ⟨hq.x, hq.y, hq.inside, fun old hold => ?_, hq.solidNew⟩
  have hget : (w.buf.setIfInBounds (p.index w) p.color)[q.index w]? = some old :=
    (if_pos hq.bounds).symm.trans hold
  rw [Array.getElem?_setIfInBounds] at hget
  split at hget
  next =>
    split at hget
    next =>
      cases hget
      exact h.solidNew
    next => cases hget
  next => exact hq.solidOld old (hq.pixel.trans hget)

end SHEET.Paintable

/-- A pixel that is drawn is in the part to be updated. -/
theorem ShownBut.draw {p : Paint} (hs : ShownBut s r ctl l)
    (hp : (ctl.sheet0 s).Paintable r p) :
    ShownBut s r (ctl.setSheet s { ctl.sheet0 s with
      buf := (ctl.sheet0 s).buf.setIfInBounds (p.index (ctl.sheet0 s)) p.color }) l := by
  intro x y hxy t ht
  have hseen : ctl.seen l x y = some t := by
    refine Eq.trans (topmost_congr fun u _ => ?_) ht
    by_cases hu : u = s
    · subst hu
      simp only [SHTCTL.setSheet, if_pos, covers_setIfInBounds hp.keepsTransparency]
    · simp only [SHTCTL.setSheet, if_neg hu]
  by_cases hts : t = s
  · subst hts
    rcases hs x y hxy t hseen with hbut | hcolor
    · simp only [SHTCTL.setSheet, if_pos]
      exact .inl ⟨trivial, hbut.2⟩
    · simp only [SHTCTL.setSheet, if_pos]
      rw [colorAt_setIfInBounds]
      split
      next hidx =>
        -- the pixel that is drawn
        obtain ⟨hox, hoy⟩ := SHEET.over_of_covers (topmost_mem hseen).2
        have hb := (rowMajor_bounds hox.1 hox.2 hoy.1 hoy.2).1
        have hb' := hp.bounds
        have heq : (ctl.sheet0 t).bufXsize * p.bufY + p.bufX = (ctl.sheet0 t).bufXsize *
            (y - (ctl.sheet0 t).yStart) + (x - (ctl.sheet0 t).xStart) := by
          rw [Paint.index] at hidx
          omega
        obtain ⟨hx, hy⟩ := rowMajor_inj hp.x.1 hp.x.2 hox.1 hox.2 heq
        exact .inl ⟨trivial, hx ▸ hy ▸ hp.inside⟩
      next => exact .inr hcolor
  · rcases hs x y hxy t hseen with hbut | hcolor
    · exact absurd hbut.1 hts
    · simp only [SHTCTL.setSheet, if_neg hts]
      exact .inr hcolor

/-- The pixels of a rectangle of the buffer are in the rectangle that is redrawn for it. -/
theorem contains_onScreenRect (hxy : ctl.OnScreen x y)
    (hin : r.Contains (x - (ctl.sheet0 s).xStart) (y - (ctl.sheet0 s).yStart)) :
    (ctl.clip (ctl.onScreenRect s r)).Contains x y := by
  obtain ⟨⟨hx, hx'⟩, hy, hy'⟩ := hin
  exact ⟨⟨clamp_le hxy.1.1 (by simp only [SHTCTL.onScreenRect]; omega),
      le_clamp hxy.1.2 (by simp only [SHTCTL.onScreenRect]; omega)⟩,
    clamp_le hxy.2.1 (by simp only [SHTCTL.onScreenRect]; omega),
    le_clamp hxy.2.2 (by simp only [SHTCTL.onScreenRect]; omega)⟩

/-- What every call relies on: the stack is in order and `zMap` is right. -/
structure PictureInv (ctl : SHTCTL) (l : List SheetId) : Prop where
  layers : Layers ctl l
  drawable : Drawable ctl
  named : Named ctl l

section Steps

variable (hinv : PictureInv ctl l)
include hinv

theorem PictureInv.sheetStep (hop : op.Legal ctl) (horderly : op.Orderly ctl) :
    ∃ ctl' l', sheetMachine.step ctl op = some ctl' ∧ PictureInv ctl' l' ∧
      SheetStep ctl l op ctl' l' := by
  obtain ⟨ctl', l', heq, h', hd', hstep⟩ := hinv.layers.sheetStep hinv.drawable hop horderly
  exact ⟨ctl', l', heq, ⟨h', hd', hinv.named.step hinv.layers.nodup hstep⟩, hstep⟩

theorem PictureInv.drawPixel {p : Paint} (hp : (ctl.sheet0 s).Paintable r p) :
    PictureInv (ctl.setSheet s { ctl.sheet0 s with
      buf := (ctl.sheet0 s).buf.setIfInBounds (p.index (ctl.sheet0 s)) p.color }) l := by
  refine ⟨hinv.layers.setSheet rfl rfl, hinv.drawable.setSheet ?_, ?_⟩
  · rw [Array.size_setIfInBounds]
    exact hinv.drawable.buf s
  · by_cases hs : s ∈ l
    · exact hinv.named.step hinv.layers.nodup (.draw hs hp.keepsTransparency)
    · exact hinv.named.congr (.setHidden hs _)

/-- Drawing any number of pixels: only these pixels are not on the screen yet. -/
theorem PictureInv.draw {pixels : List Paint} {w : SHEET} (hu : (ctl.sheet0 s).flags = .inUse)
    (hw : (ctl.sheet0 s).bufXsize = w.bufXsize) (hp : ∀ p ∈ pixels, (ctl.sheet0 s).Paintable r p) :
    ∃ ctl', sheetMachine.run ctl (pixels.map (·.toOp s w)) = some ctl' ∧ PictureInv ctl' l ∧
      (ctl'.sheet0 s).flags = .inUse ∧ (ShownBut s r ctl l → ShownBut s r ctl' l) := by
  induction pixels generalizing ctl with
  | nil => exact ⟨ctl, rfl, hinv, hu, id⟩
  | cons p pixels ih =>
    have hp₀ := hp p mem_cons_self
    have hstep : sheetMachine.step ctl (p.toOp s w) = some (ctl.setSheet s { ctl.sheet0 s with
        buf := (ctl.sheet0 s).buf.setIfInBounds (p.index (ctl.sheet0 s)) p.color }) := by
      rw [Paint.toOp, Paint.index, ← hw]
      rfl
    have hself : ∀ v, (ctl.setSheet s v).sheet0 s = v := fun _ => if_pos rfl
    obtain ⟨ctl', hrun, hinv', hu', hbut⟩ := ih (hinv.drawPixel hp₀) (by rw [hself]; exact hu)
      (by rw [hself]; exact hw)
      (fun q hq => by rw [hself]; exact hp₀.draw (hp q (mem_cons_of_mem _ hq)))
    refine ⟨ctl', ?_, hinv', hu', fun hs => hbut (hs.draw hp₀)⟩
    rw [map_cons, Machine.run_cons hstep, hrun]

/-- **Drawing, then updating** keeps the screen right. -/
theorem PictureInv.repaint {pixels : List Paint} (hop : (PaintOp.repaint s pixels r).Legal ctl) :
    ∃ ctl', paintMachine.step ctl (.repaint s pixels r) = some ctl' ∧ PictureInv ctl' l ∧
      (Shown ctl l → Shown ctl' l) := by
  obtain ⟨hu, hp⟩ := hop
  obtain ⟨c, hrun, hinv₁, hu₁, hbut⟩ := hinv.draw hu rfl hp
  have hstep : ∀ ctl', sheetUpdateSheet c s r = some ctl' →
      paintMachine.step ctl (.repaint s pixels r) = some ctl' := by
    intro ctl' hupd
    show sheetMachine.run _ _ = _
    rw [Machine.run_append, hrun, Option.bind_some]
    exact Machine.run_cons hupd []
  rcases hinv₁.layers.updateSheet_spec hinv₁.drawable hu₁ r with
    ⟨hout, hupd⟩ | ⟨i, v, hi, hupd, hv⟩
  · refine ⟨c, hstep c hupd, hinv₁, fun hs x y hxy t ht => ?_⟩
    refine (hbut (fun x y hxy t ht => .inr (hs x y hxy t ht)) x y hxy t ht).resolve_left ?_
    rintro ⟨rfl, -⟩
    exact hout (topmost_mem ht).1
  · refine ⟨_, hstep _ hupd, ⟨hinv₁.layers.congr rfl rfl rfl fun _ => rfl,
      ⟨hinv₁.drawable.xsize, hinv₁.drawable.ysize, hinv₁.drawable.buf⟩, hinv₁.named⟩, ?_⟩
    intro hs x y hxy t ht
    obtain ⟨n, hget⟩ := getElem?_of_mem (topmost_mem ht).1
    refine hv.shows hinv₁.named hxy ht hget fun hout => ?_
    refine (hbut (fun x y hxy t ht => .inr (hs x y hxy t ht)) x y hxy t ht).resolve_left ?_
    rintro ⟨rfl, hin⟩
    have hni : n = i := by
      by_contra hni
      exact ne_of_index_ne hinv₁.layers.nodup hi hget hni rfl
    exact hout ⟨contains_onScreenRect hxy hin, by omega, lt_rangeEnd (by omega)⟩

/-! ## Any history -/

/-- The screen is right after a call iff the call uncovers nothing. -/
theorem PictureInv.call (hop : op.Legal ctl) (horderly : op.Orderly ctl) (hclean : op.Clean ctl) :
    ∃ ctl' l', sheetMachine.step ctl op = some ctl' ∧ PictureInv ctl' l' ∧
      (VramRight ctl → (VramRight ctl' ↔ op.Uncovers ctl)) := by
  obtain ⟨ctl', l', heq, hinv', hstep⟩ := hinv.sheetStep hop horderly
  refine ⟨ctl', l', heq, hinv', fun hright => ⟨fun hright' => ?_, fun hunc => ?_⟩⟩
  · rw [hinv.layers.vramRight_iff] at hright
    cases op with
    | updown s z =>
      intro hz hlt
      obtain ⟨j, rfl⟩ := Int.eq_ofNat_of_zero_le hz
      obtain ⟨i, hi⟩ := getElem?_of_mem ((hinv.layers.mem_iff hop).mpr (by omega))
      have hpos := hinv.layers.pos_eq hi
      obtain ⟨c, hc, hl, -⟩ := hinv.layers.updown_step hinv.drawable hop horderly
      cases heq.symm.trans hc
      exact hinv.layers.sameBelow_of_down hinv.drawable hinv.named hright hop hi (by omega) hc
        (hl.vramRight_iff.mp hright')
    | _ => trivial
  · rw [hinv.layers.vramRight_iff] at hright
    rw [hinv'.layers.vramRight_iff]
    exact hright.step hinv.layers hinv.named hinv'.named hstep hop hclean hunc

theorem PictureInv.step {op : PaintOp} (hop : op.Legal ctl) :
    ∃ ctl' l', paintMachine.step ctl op = some ctl' ∧ PictureInv ctl' l' ∧
      (VramRight ctl → (VramRight ctl' ↔ op.Uncovers ctl)) := by
  cases op with
  | call op => exact hinv.call hop.1 hop.2.1 hop.2.2
  | repaint s pixels r =>
    obtain ⟨ctl', heq, hinv', hs⟩ := hinv.repaint hop
    refine ⟨ctl', l, heq, hinv', fun hright => iff_of_true ?_ trivial⟩
    rw [hinv.layers.vramRight_iff] at hright
    rw [hinv'.layers.vramRight_iff]
    exact hs hright

end Steps

theorem PictureInv.init (vram : Nat → UInt8) {xsize ysize : Int} (hx : 0 < xsize)
    (hy : 0 < ysize) : PictureInv (shtctlInit vram xsize ysize) [] :=
  ⟨shtctlInit_layers vram xsize ysize, ⟨hx, hy, fun _ => Int.le_refl 0⟩,
    fun _ _ _ t ht => by cases ht⟩

/-- **The screen stays right iff nothing is uncovered.** Along every history of calls and
drawings: every operation that finds the topmost sheet shown at every covered pixel
leaves it so, iff none that finds it so moves a sheet down from right above a sheet of
another colour. No operation is stuck. -/
theorem vram_right_iff (vram : Nat → UInt8) {xsize ysize : Int} (hx : 0 < xsize)
    (hy : 0 < ysize) (ops : List PaintOp)
    (hlegal : paintMachine.AllSteps (fun ctl op => op.Legal ctl) (shtctlInit vram xsize ysize)
      ops) :
    paintMachine.Always (fun _ => True) (fun ctl _ ctl' => VramRight ctl → VramRight ctl')
        (shtctlInit vram xsize ysize) ops ↔
      paintMachine.AllSteps (fun ctl op => VramRight ctl → op.Uncovers ctl)
        (shtctlInit vram xsize ysize) ops := by
  refine Machine.always_iff (fun ctl (_ : ∃ l, PictureInv ctl l) => trivial) ?_ ?_
    ⟨[], .init vram hx hy⟩ hlegal
  · rintro ctl op ⟨l, hinv⟩ hop hunc
    obtain ⟨ctl', l', heq, hinv', hiff⟩ := hinv.step hop
    exact ⟨ctl', heq, fun hright => (hiff hright).mpr (hunc hright), l', hinv'⟩
  · rintro ctl op ctl' ⟨l, hinv⟩ hop hbad heq hkeeps
    obtain ⟨c, l', hc, -, hiff⟩ := hinv.step hop
    cases heq.symm.trans hc
    exact absurd (fun hright => (hiff hright).mp (hkeeps hright)) hbad

/-- A sheet of one pixel and above it one that is transparent there. The upper one is
repainted and then moved down. -/
theorem vram_right_iff_repaint :
    paintMachine.Always (fun _ => True) (fun ctl _ ctl' => VramRight ctl → VramRight ctl')
      (shtctlInit (fun _ => 0) 2 1)
      [.call .alloc, .call (.setbuf 0 #[1] 1 1 (-1)), .call .alloc,
        .call (.setbuf 1 #[99, 7] 2 1 99), .call (.updown 0 0), .call (.updown 1 1),
        .repaint 1 [⟨1, 0, 9⟩] ⟨1, 0, 1, 0⟩, .call (.updown 1 0)] :=
  (vram_right_iff (fun _ => 0) (by decide) (by decide) _ (by decide +kernel)).mpr
    (by decide +kernel)

/-- Two sheets of one pixel, one over the other. The upper one is moved down: the lower
one is now on top, and the screen still shows the other. -/
theorem vram_stale_after_down :
    paintMachine.AllSteps (fun ctl op => op.Legal ctl) (shtctlInit (fun _ => 0) 1 1)
      [.call .alloc, .call (.setbuf 0 #[1] 1 1 (-1)), .call .alloc,
        .call (.setbuf 1 #[2] 1 1 (-1)), .call (.updown 0 0), .call (.updown 1 1),
        .call (.updown 1 0)] ∧
    (∃ ctl ∈ paintMachine.run (shtctlInit (fun _ => 0) 1 1)
      [.call .alloc, .call (.setbuf 0 #[1] 1 1 (-1)), .call .alloc,
        .call (.setbuf 1 #[2] 1 1 (-1)), .call (.updown 0 0), .call (.updown 1 1)],
      VramRight ctl) ∧
    ∃ ctl ∈ paintMachine.run (shtctlInit (fun _ => 0) 1 1)
      [.call .alloc, .call (.setbuf 0 #[1] 1 1 (-1)), .call .alloc,
        .call (.setbuf 1 #[2] 1 1 (-1)), .call (.updown 0 0), .call (.updown 1 1),
        .call (.updown 1 0)],
      ctl.TopmostAt 0 0 0 ∧ (ctl.sheet0 0).colorAt 0 0 = some 1 ∧ ctl.vram 0 = 2 ∧
        ¬ VramRight ctl := by
  decide +kernel

end UnagiOs
