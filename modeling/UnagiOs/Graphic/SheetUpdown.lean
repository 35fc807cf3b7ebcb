import UnagiOs.Graphic.SheetStack

/-!
# sheet_updown

One equation for each branch of `sheet_updown`, then what the branch does to the
stack. Hiding a sheet, showing one on top and moving a shown one below the top
are `restack`. Two calls are not:

- to show a hidden sheet below the top, the loop starts at `zTop` instead of
  `zTop + 1` and overwrites the top sheet (`Layers.show_inside`);
- to move a shown sheet to `zTop + 1`, the loop reads the slot past the top,
  which holds whatever was left there (`Layers.move_past_top`).
-/

namespace UnagiOs

open List

variable {ctl ctl' c : SHTCTL} {l : List SheetId} {s : SheetId} {i j : Nat} {z zNew : Int}

/-- The area of the screen that a sheet takes. -/
def SHTCTL.area (ctl : SHTCTL) (s : SheetId) : Rect :=
  (ctl.sheet0 s).areaAt (ctl.sheet0 s).xStart (ctl.sheet0 s).yStart

/-- The call does not need the slot past the top: a hidden sheet stays hidden or goes
on top, a shown one does not go above the top. (Above the top is harmless when the
slot there happens to hold that very sheet.) -/
def SHTCTL.Movable (ctl : SHTCTL) (s : SheetId) (zNew : Int) : Prop :=
  if ctl.pos s < 0 then zNew < 0 ∨ ctl.zTop < zNew
  else zNew ≤ ctl.zTop ∨ ctl.sheetAt (ctl.zTop + 1) = some s

instance SHTCTL.decidableMovable (ctl : SHTCTL) (s : SheetId) (zNew : Int) :
    Decidable (ctl.Movable s zNew) :=
  inferInstanceAs (Decidable (if ctl.pos s < 0 then zNew < 0 ∨ ctl.zTop < zNew
    else zNew ≤ ctl.zTop ∨ ctl.sheetAt (ctl.zTop + 1) = some s))

/-- The sheet goes to a slot of the stack, or on top of it when it was hidden. -/
def SHTCTL.InRange (ctl : SHTCTL) (s : SheetId) (zNew : Int) : Prop :=
  if ctl.pos s < 0 then zNew < 0 ∨ ctl.zTop < zNew else zNew ≤ ctl.zTop

instance SHTCTL.decidableInRange (ctl : SHTCTL) (s : SheetId) (zNew : Int) :
    Decidable (ctl.InRange s zNew) :=
  inferInstanceAs (Decidable (if ctl.pos s < 0 then zNew < 0 ∨ ctl.zTop < zNew
    else zNew ≤ ctl.zTop))

/-- How a call moves a sheet of the stack, with the range of `z` that it redraws. -/
inductive Redraw (l : List SheetId) (s : SheetId) : Int → Nat → Int → Prop
  | hide {i : Nat} {z : Int} (hi : l[i]? = some s) (hz : z < 0) : Redraw l s z 0 (i - 1)
  | show {z : Int} (hs : s ∉ l) (hz : l.length ≤ z) : Redraw l s z l.length l.length
  | down {i j : Nat} (hi : l[i]? = some s) (hji : j < i) : Redraw l s j j (i - 1)
  | up {i j : Nat} (hi : l[i]? = some s) (hij : i < j) (hj : j < l.length) : Redraw l s j j j

/-- What is redrawn is in the stack. -/
theorem Redraw.zEnd_lt {zStart : Nat} {zEnd : Int} (h : Redraw l s z zStart zEnd) :
    zEnd < (restack l s z).length := by
  cases h with
  | hide hi hz =>
    have hrest := length_erase_of_index hi
    rw [restack_neg hz]
    omega
  | «show» hs hz =>
    rw [length_restack (by omega), erase_of_not_mem hs]
    omega
  | down hi hji =>
    have hrest := length_erase_of_index hi
    rw [length_restack (by omega)]
    omega
  | up hi hij hj =>
    have hrest := length_erase_of_index hi
    rw [length_restack (by omega)]
    omega

theorem Redraw.le_zEnd {zStart : Nat} {zEnd : Int} (h : Redraw l s z zStart zEnd) :
    -1 ≤ zEnd := by
  cases h <;> omega

section Branches

variable (hne : ctl.pos s ≠ ctl.normalize z)

theorem updown_same (h : ctl.pos s = ctl.normalize z) :
    sheetUpdown ctl s z = some (ctl.setZ s (ctl.normalize z)) :=
  if_pos h

include hne

theorem updown_hide (hz : ctl.normalize z < 0) :
    sheetUpdown ctl s z =
      ((ctl.setZ s (ctl.normalize z)).moveDown (ctl.pos s) ctl.zTop).bind fun c =>
        SHTCTL.refresh { c with zTop := c.zTop - 1 } (ctl.area s) 0 (ctl.pos s - 1) :=
  (if_neg hne).trans (if_pos hz)

theorem updown_show (hz : 0 ≤ ctl.normalize z) (hs : ctl.pos s < 0) :
    sheetUpdown ctl s z =
      ((ctl.setZ s (ctl.normalize z)).moveUp ctl.zTop (ctl.normalize z)).bind fun c =>
        (c.storeAt (ctl.normalize z) s).bind fun c =>
          SHTCTL.refresh { c with zTop := c.zTop + 1 } (ctl.area s) (ctl.normalize z)
            (ctl.normalize z) :=
  (if_neg hne).trans ((if_neg (Int.not_lt.mpr hz)).trans (if_pos hs))

theorem updown_down (hz : 0 ≤ ctl.normalize z) (hs : ctl.pos s > ctl.normalize z) :
    sheetUpdown ctl s z =
      ((ctl.setZ s (ctl.normalize z)).moveUp (ctl.pos s) (ctl.normalize z)).bind fun c =>
        (c.storeAt (ctl.normalize z) s).bind fun c =>
          c.refresh (ctl.area s) (ctl.normalize z) (ctl.pos s - 1) :=
  (if_neg hne).trans ((if_neg (Int.not_lt.mpr hz)).trans
    ((if_neg (Int.not_lt.mpr (Int.le_of_lt (Int.lt_of_le_of_lt hz hs)))).trans (if_pos hs)))

theorem updown_up (hs : 0 ≤ ctl.pos s) (hz : ctl.pos s < ctl.normalize z) :
    sheetUpdown ctl s z =
      ((ctl.setZ s (ctl.normalize z)).moveDown (ctl.pos s) (ctl.normalize z)).bind fun c =>
        (c.storeAt (ctl.normalize z) s).bind fun c =>
          c.refresh (ctl.area s) (ctl.normalize z) (ctl.normalize z) :=
  (if_neg hne).trans ((if_neg (Int.not_lt.mpr (Int.le_trans hs (Int.le_of_lt hz)))).trans
    ((if_neg (Int.not_lt.mpr hs)).trans (if_neg (Int.lt_asymm hz))))

end Branches

namespace Layers

/-- Taking a sheet out of its slot leaves a gap, whatever its `z` is set to. -/
theorem gap_erase (h : Layers ctl l) (hi : l[i]? = some s) (z : Int) :
    Gap (ctl.setZ s z).sheets (ctl.setZ s z).pos i (l.erase s) := by
  rw [← eraseIdx_eq_erase h.nodup hi]
  refine (h.slots.eraseIdx i).congr (fun _ _ => rfl) fun t ht => ?_
  rw [eraseIdx_eq_erase h.nodup hi] at ht
  rw [setZ_pos]
  exact if_neg fun hts => h.nodup.not_mem_erase (hts ▸ ht)

/-- For a hidden sheet the gap is above the top. -/
theorem gap_hidden (h : Layers ctl l) (hs : s ∉ l) (z : Int) :
    Gap (ctl.setZ s z).sheets (ctl.setZ s z).pos l.length (l.erase s) := by
  rw [erase_of_not_mem hs]
  refine h.slots.congr (fun _ _ => rfl) fun t ht => ?_
  rw [setZ_pos]
  exact if_neg fun (hts : t = s) => hs (hts ▸ ht)

/-- What a branch leaves alone, once `z` has been set. -/
theorem keeps (h : Shifted (l.erase s) (ctl.setZ s z) c) :
    (∀ t, (c.sheet0 t).flags = (ctl.sheet0 t).flags) ∧
      (∀ t ∉ l, t ≠ s → c.pos t = ctl.pos t) := by
  refine ⟨fun t => ?_, fun t ht hts => ?_⟩
  · rw [h.flags, setZ_flags]
  · rw [h.pos t fun hmem => ht (mem_of_mem_erase hmem), setZ_pos, if_neg hts]

/-- The end of the three branches that store the sheet in the gap. -/
theorem store (h : Layers ctl l) (hu : (ctl.sheet0 s).flags = .inUse)
    (hsh : Shifted (l.erase s) (ctl.setZ s j) c) (hgap : Gap c.sheets c.pos j (l.erase s))
    (hj : j ≤ (l.erase s).length) {zTop : Int} (htop : zTop = (l.erase s).length) :
    Layers { c.store j s with zTop := zTop } (restack l s j) := by
  obtain ⟨hflags, hpos⟩ := keeps hsh
  have hs : c.pos s = j := by
    rw [hsh.pos s h.nodup.not_mem_erase, setZ_pos, if_pos rfl]
  have hlen : (restack l s j).length = (l.erase s).length + 1 := by
    rw [restack_natCast hj, length_insertIdx_of_le_length hj]
  refine h.restacked hu hflags hpos (fun hneg => ?_) ?_ ?_
  · omega
  · rw [hlen, htop]
    rfl
  · rw [hlen, restack_natCast hj]
    exact hgap.fill hj hs

variable (h : Layers ctl l) (hu : (ctl.sheet0 s).flags = .inUse)

include h hu

/-- To hide a sheet. -/
theorem updown_hide (hi : l[i]? = some s) (hz : ctl.normalize z = -1) :
    ∃ c, Layers c (restack l s (-1)) ∧ SamePicture ctl c ∧
      sheetUpdown ctl s z = c.refresh (ctl.area s) 0 (i - 1) := by
  have hpos := h.pos_eq hi
  have hrest := length_erase_of_index hi
  have hlen := h.length_le
  have htop : ctl.zTop = (l.erase s).length := by have := h.top; omega
  obtain ⟨c, hc, hgap, hsh⟩ := moveDown_gap (h.nodup.erase s) (by omega)
    (h.gap_erase hi (-1)) (j := (l.erase s).length) (by omega) (Nat.le_refl _)
  obtain ⟨hflags, hkeep⟩ := keeps hsh
  have hpic := hsh.samePicture
  refine ⟨{ c with zTop := c.zTop - 1 }, ?_, { hpic with }, ?_⟩
  · refine h.restacked hu hflags hkeep (fun _ => ?_) ?_ ?_
    · exact (hsh.pos s h.nodup.not_mem_erase).trans (by rw [setZ_pos, if_pos rfl])
    · rw [restack_neg (by decide), ← htop, ← setZ_zTop ctl s (-1), ← hsh.zTop]
      exact Int.sub_add_cancel _ _
    · rw [restack_neg (by decide)]
      exact hgap
  · rw [UnagiOs.updown_hide (by omega) (by omega), hz, hpos, htop, hc, Option.bind_some]

/-- To display a hidden sheet on top. -/
theorem updown_show (hs : s ∉ l) (hz : ctl.normalize z = l.length) :
    ∃ c, Layers c (restack l s l.length) ∧ SamePicture ctl c ∧
      sheetUpdown ctl s z = c.refresh (ctl.area s) l.length l.length := by
  have hpos := h.hidden s hu hs
  have hrest : l.erase s = l := erase_of_not_mem hs
  have hlen : l.length < osVgaMaxSheets := by
    have hcard := (nodup_cons.mpr ⟨hs, h.nodup⟩).length_le_card
    rwa [length_cons, Fintype.card_fin] at hcard
  have htop := h.top
  have hsh := Shifted.refl (l.erase s) (ctl.setZ s l.length)
  have hpic := hsh.samePicture
  refine ⟨{ (ctl.setZ s l.length).store l.length s with zTop := ctl.zTop + 1 }, ?_,
    { hpic with }, ?_⟩
  · exact h.store hu hsh (h.gap_hidden hs _) (by rw [hrest]) (by rw [hrest, htop])
  · rw [UnagiOs.updown_show (by omega) (by omega) (by omega), hz, moveUp_of_le (by omega),
      Option.bind_some, storeAt_natCast hlen, Option.bind_some]
    rfl

/-- To move a shown sheet downwards. -/
theorem updown_down (hi : l[i]? = some s) (hji : j < i) (hz : ctl.normalize z = j) :
    ∃ c, Layers c (restack l s j) ∧ SamePicture ctl c ∧
      sheetUpdown ctl s z = c.refresh (ctl.area s) j (i - 1) := by
  have hpos := h.pos_eq hi
  have hrest := length_erase_of_index hi
  have htop := h.top
  have hlen := h.length_le
  obtain ⟨c, hc, hgap, hsh⟩ := moveUp_gap (h.nodup.erase s) (by omega) (h.gap_erase hi j)
    (Nat.le_of_lt hji) (by omega)
  have hzTop : c.zTop = (l.erase s).length := by
    rw [hsh.zTop, setZ_zTop]
    omega
  have hpic := hsh.samePicture
  refine ⟨c.store j s, h.store hu hsh hgap (by omega) hzTop, { hpic with }, ?_⟩
  rw [UnagiOs.updown_down (by omega) (by omega) (by omega), hz, hpos, hc, Option.bind_some,
    storeAt_natCast (by omega), Option.bind_some]

/-- To move a shown sheet up, not above the top. -/
theorem updown_up (hi : l[i]? = some s) (hij : i < j) (hj : j < l.length)
    (hz : ctl.normalize z = j) :
    ∃ c, Layers c (restack l s j) ∧ SamePicture ctl c ∧
      sheetUpdown ctl s z = c.refresh (ctl.area s) j j := by
  have hpos := h.pos_eq hi
  have hrest := length_erase_of_index hi
  have htop := h.top
  have hlen := h.length_le
  obtain ⟨c, hc, hgap, hsh⟩ := moveDown_gap (h.nodup.erase s) (by omega) (h.gap_erase hi j)
    (Nat.le_of_lt hij) (by omega)
  have hzTop : c.zTop = (l.erase s).length := by
    rw [hsh.zTop, setZ_zTop]
    omega
  have hpic := hsh.samePicture
  refine ⟨c.store j s, h.store hu hsh hgap (by omega) hzTop, { hpic with }, ?_⟩
  rw [UnagiOs.updown_up (by omega) (by omega) (by omega), hz, hpos, hc, Option.bind_some,
    storeAt_natCast (by omega), Option.bind_some]

omit h hu in
theorem normalize_eq (h : Layers ctl l) (z : Int) :
    ctl.normalize z = if z < 0 then -1 else if z ≤ l.length then z else l.length := by
  have htop := h.top
  simp only [SHTCTL.normalize]
  split <;> split <;> omega

/-- **A call within the stack**: nothing happens, or the sheets are restacked and some
of them redrawn. -/
theorem updown_redraw (hr : ctl.InRange s z) :
    (sheetUpdown ctl s z = some ctl ∧ restack l s z = l) ∨
      ∃ c zStart zEnd, Redraw l s z zStart zEnd ∧ Layers c (restack l s z) ∧
        SamePicture ctl c ∧ sheetUpdown ctl s z = c.refresh (ctl.area s) zStart zEnd := by
  have htop := h.top
  have hnorm := h.normalize_eq z
  by_cases hs : s ∈ l
  · obtain ⟨i, hi⟩ := getElem?_of_mem hs
    have hpos := h.pos_eq hi
    have hlt := (List.getElem?_eq_some_iff.mp hi).1
    rw [SHTCTL.InRange, if_neg (by rw [hpos]; omega)] at hr
    by_cases hneg : z < 0
    · rw [if_pos hneg] at hnorm
      obtain ⟨c, hl, hpic, heq⟩ := h.updown_hide hu hi hnorm
      rw [restack_neg (by decide), ← restack_neg hneg] at hl
      exact .inr ⟨c, 0, i - 1, .hide hi hneg, hl, hpic, heq⟩
    · obtain ⟨j, rfl⟩ := Int.eq_ofNat_of_zero_le (Int.not_lt.mp hneg)
      rw [if_neg hneg, if_pos (by omega)] at hnorm
      rcases Nat.lt_trichotomy j i with hji | rfl | hij
      · obtain ⟨c, hl, hpic, heq⟩ := h.updown_down hu hi hji hnorm
        exact .inr ⟨c, j, i - 1, .down hi hji, hl, hpic, heq⟩
      · refine .inl ⟨?_, restack_self h.nodup hi⟩
        rw [updown_same (hpos.trans hnorm.symm), hnorm, ← hpos, setZ_self]
      · obtain ⟨c, hl, hpic, heq⟩ := h.updown_up hu hi hij (by omega) hnorm
        exact .inr ⟨c, j, j, .up hi hij (by omega), hl, hpic, heq⟩
  · have hpos := h.hidden s hu hs
    have hrest : l.erase s = l := erase_of_not_mem hs
    rw [SHTCTL.InRange, if_pos (by rw [hpos]; decide)] at hr
    rcases hr with hneg | hgt
    · rw [if_pos hneg] at hnorm
      refine .inl ⟨?_, by rw [restack_neg hneg, hrest]⟩
      rw [updown_same (hpos.trans hnorm.symm), hnorm, ← hpos, setZ_self]
    · have hz : ctl.normalize z = l.length := by
        rw [hnorm]
        split <;> [omega; split <;> omega]
      have hstack : restack l s z = restack l s l.length := by
        rw [restack_top (by rw [hrest]; omega), restack_top (by rw [hrest])]
      obtain ⟨c, hl, hpic, heq⟩ := h.updown_show hu hs hz
      exact .inr ⟨c, l.length, l.length, .show hs (by omega), hstack ▸ hl, hpic, heq⟩

omit hu in
/-- To move a shown sheet above the top, the last round of the loop reads the slot
past the top. -/
theorem updown_past_top (hi : l[i]? = some s) (hz : ctl.normalize z = l.length) :
    ∃ c, Gap c.sheets c.pos (l.erase s).length (l.erase s) ∧
      Shifted (l.erase s) (ctl.setZ s l.length) c ∧
      sheetUpdown ctl s z = (c.pull (l.erase s).length l.length).bind fun c =>
        (c.storeAt l.length s).bind fun c => c.refresh (ctl.area s) l.length l.length := by
  have hpos := h.pos_eq hi
  obtain ⟨hrest, hle⟩ := length_erase_of_index hi
  have hlen := h.length_le
  have hcast : (l.length : Int) = (l.erase s).length + 1 := by omega
  obtain ⟨c, hc, hgap, hsh⟩ := moveDown_gap (h.nodup.erase s) (by omega)
    (h.gap_erase hi l.length) hle (Nat.le_refl _)
  have hmove : (ctl.setZ s l.length).moveDown i l.length = c.pull (l.erase s).length l.length := by
    have hlast := moveDown_succ (Int.ofNat_le.mpr hle) |>.trans (congrArg (Option.bind · _) hc)
    rwa [Option.bind_some, ← hcast] at hlast
  refine ⟨c, hgap, hsh, ?_⟩
  rw [UnagiOs.updown_up (by omega) (by omega) (by omega), hz, hpos, hmove]

/-- The sheet that pulls itself down from the slot past the top is on top. -/
theorem pulled_top (hi : l[i]? = some s) (hgap : Gap c.sheets c.pos (l.erase s).length (l.erase s))
    (hsh : Shifted (l.erase s) (ctl.setZ s l.length) c) :
    Layers ((c.pulled (l.erase s).length s).store l.length s) (restack l s l.length) := by
  obtain ⟨hrest, -⟩ := length_erase_of_index hi
  obtain ⟨hflags, hkeep⟩ := keeps hsh
  have hne : ∀ t ∈ l.erase s, t ≠ s := fun t ht hts => h.nodup.not_mem_erase (hts ▸ ht)
  have hstack : restack l s l.length = (l.erase s).insertIdx (l.erase s).length s :=
    restack_top (by omega)
  have hlen : (restack l s l.length).length = (l.erase s).length + 1 := by
    rw [hstack, length_insertIdx_of_le_length (Nat.le_refl _)]
  refine h.restacked hu (fun t => pulled_flags.trans (hflags t))
    (fun t ht hts => (pulled_pos_ne hts).trans (hkeep t ht hts)) (fun hneg => by omega) ?_ ?_
  · rw [hlen, hrest, ← h.top, ← setZ_zTop ctl s l.length, ← hsh.zTop]
    rfl
  · have hgap' : Gap c.sheets (c.pulled (l.erase s).length s).pos (l.erase s).length (l.erase s) :=
      hgap.congr (fun _ _ => rfl) fun t ht => pulled_pos_ne (hne t ht)
    have hfill := hgap'.fill (Nat.le_refl _) pulled_pos_self
    rw [← hstack, ← hlen] at hfill
    refine hfill.congr (fun k hk => ?_) fun _ _ => rfl
    exact if_neg (by rw [skip_of_lt hk]; omega)

/-- If the slot past the top holds that very sheet, the sheet pulls itself down and
ends on top. -/
theorem updown_stale (hd : Drawable ctl) (hi : l[i]? = some s) (hz : ctl.normalize z = l.length)
    (hstale : ctl.sheetAt l.length = some s) :
    ∃ ctl', sheetUpdown ctl s z = some ctl' ∧ Layers ctl' (restack l s l.length) ∧
      Drawable ctl' := by
  obtain ⟨hrest, -⟩ := length_erase_of_index hi
  have htop := h.top
  obtain ⟨hlen, hslot⟩ := sheetAt_eq_some hstale
  obtain ⟨c, hgap, hsh, heq⟩ := h.updown_past_top hi hz
  have hsrc : c.sheetAt l.length = some s := by
    rw [sheetAt_natCast hlen, hsh.above _ (by omega)]
    exact hslot
  rw [heq, pull_eq hsrc (by omega), Option.bind_some, storeAt_natCast hlen, Option.bind_some]
  have hl := h.pulled_top hu hi hgap hsh
  have hd' : Drawable ((c.pulled (l.erase s).length s).store l.length s) :=
    (((hsh.drawable (hd.setZ s l.length)).store _ s).setZ s _).store _ s
  -- only the slot past the top is redrawn
  have hzTop : ((c.pulled (l.erase s).length s).store l.length s).zTop = ctl.zTop := hsh.zTop
  have hself : ((c.pulled (l.erase s).length s).store l.length s).sheetAt l.length = some s :=
    (sheetAt_natCast hlen).trans (if_pos rfl)
  obtain ⟨m, v, heq'⟩ := hd'.refresh (ctl.area s) (fun z (hz : (l.length : Int) ≤ z)
    (hz' : z ≤ _ ∨ z ≤ (l.length : Int)) => ⟨s, by rwa [show z = l.length by omega]⟩)
  exact ⟨_, heq', hl.congr rfl rfl rfl fun _ => rfl, ⟨hd'.xsize, hd'.ysize, hd'.buf⟩⟩

/-- **A call that does not need the slot past the top** restacks the sheets. -/
theorem updown (hd : Drawable ctl) (hm : ctl.Movable s z) :
    ∃ ctl', sheetUpdown ctl s z = some ctl' ∧ Layers ctl' (restack l s z) ∧ Drawable ctl' := by
  by_cases hr : ctl.InRange s z
  · rcases h.updown_redraw hu hr with ⟨heq, hl⟩ | ⟨c, zStart, zEnd, hre, hl, hpic, heq⟩
    · exact ⟨ctl, heq, hl.symm ▸ h, hd⟩
    · rw [heq]
      exact hl.refresh (hpic.drawable hd) _ (Int.natCast_nonneg zStart) hre.zEnd_lt
  · have htop := h.top
    have hnorm := h.normalize_eq z
    by_cases hpos : ctl.pos s < 0
    · rw [SHTCTL.Movable, if_pos hpos] at hm
      rw [SHTCTL.InRange, if_pos hpos] at hr
      exact absurd hm hr
    · rw [SHTCTL.Movable, if_neg hpos] at hm
      rw [SHTCTL.InRange, if_neg hpos] at hr
      obtain ⟨i, hi⟩ := getElem?_of_mem ((h.mem_iff hu).mpr (Int.not_lt.mp hpos))
      have hrest := length_erase_of_index hi
      have hz : ctl.normalize z = l.length := by
        rw [hnorm]
        split <;> [omega; split <;> omega]
      rw [restack_top (by omega), ← restack_top (by omega : _ ≤ (l.length : Int))]
      refine h.updown_stale hu hd hi hz ?_
      rw [← htop]
      exact hm.resolve_left hr

/-! ### The calls that break the stack -/

omit hu in
/-- **A sheet shown below the top** takes the place of the top sheet, which keeps its
`z` and is in no slot any more. -/
theorem show_inside (hs : s ∉ l) (hpos : ctl.pos s = -1) (hj : j < l.length)
    (hz : ctl.normalize z = j) (heq : sheetUpdown ctl s z = some ctl') :
    ∃ t, (ctl'.sheet0 t).flags = .inUse ∧ ctl'.pos t = (l.length - 1 : Nat) ∧
      ctl'.sheets (l.length - 1) ≠ some t := by
  have htop := h.top
  have hlen := h.length_le
  obtain ⟨t, ht⟩ : ∃ t, l[l.length - 1]? = some t :=
    ⟨l[l.length - 1], getElem?_eq_getElem (by omega)⟩
  obtain ⟨hrest, hle⟩ := length_erase_of_index ht
  have htl := mem_of_getElem? ht
  have hts : t ≠ s := fun hts => hs (hts ▸ htl)
  -- the loop treats the slot of the top sheet as the gap
  have hgap : Gap (ctl.setZ s j).sheets (ctl.setZ s j).pos (l.length - 1) (l.erase t) := by
    refine (eraseIdx_eq_erase h.nodup ht ▸ h.slots.eraseIdx (l.length - 1)).congr
      (fun _ _ => rfl) fun x hx => ?_
    rw [setZ_pos]
    exact if_neg fun (hxs : x = s) => hs (hxs ▸ mem_of_mem_erase hx)
  obtain ⟨c, hc, hgap', hsh⟩ := moveUp_gap (h.nodup.erase t) (by omega) hgap (j := j) (by omega) hle
  have hzTop : ctl.zTop = (l.length - 1 : Nat) := by omega
  rw [UnagiOs.updown_show (by omega) (by omega) (by omega), hz, hzTop, hc, Option.bind_some,
    storeAt_natCast (by omega), Option.bind_some] at heq
  obtain ⟨m, v, rfl⟩ := refresh_eq heq
  refine ⟨t, ?_, ?_, ?_⟩
  · show (c.sheet0 t).flags = .inUse
    rw [hsh.flags, setZ_flags]
    exact h.inUse t htl
  · show c.pos t = _
    rw [hsh.pos t h.nodup.not_mem_erase, setZ_pos, if_neg hts, h.pos_eq ht]
  · show setSlot c.sheets j (some s) (l.length - 1) ≠ some t
    by_cases hjtop : l.length - 1 = j
    · rw [setSlot, if_pos hjtop]
      exact fun hst => hts (Option.some.inj hst).symm
    · have hx : (l.erase t)[l.length - 2]? = some (l.erase t)[l.length - 2] :=
        getElem?_eq_getElem (by omega)
      have hslot := (hgap' _ _ hx).1
      rw [skip_of_le (by omega), show l.length - 2 + 1 = l.length - 1 by omega] at hslot
      rw [setSlot, if_neg hjtop, hslot]
      exact fun hxt => h.nodup.not_mem_erase (Option.some.inj hxt ▸ getElem_mem _)

omit hu in
/-- **A shown sheet moved above the top** is left with a `z` above the top, unless it
finds itself in the slot there. -/
theorem move_past_top (hi : l[i]? = some s) (hz : ctl.normalize z = l.length)
    (hstale : ctl.sheetAt l.length ≠ some s) (heq : sheetUpdown ctl s z = some ctl') :
    ctl'.pos s = l.length ∧ ctl'.zTop = ctl.zTop ∧
      (ctl'.sheet0 s).flags = (ctl.sheet0 s).flags := by
  obtain ⟨hrest, -⟩ := length_erase_of_index hi
  have hlen := h.length_le
  obtain ⟨c, -, hsh, hcall⟩ := h.updown_past_top hi hz
  rw [hcall] at heq
  obtain ⟨c₁, hpull, hrefresh⟩ := Option.bind_eq_some_iff.mp heq
  obtain ⟨c₂, hstore, hrefresh⟩ := Option.bind_eq_some_iff.mp hrefresh
  obtain ⟨x, hx, rfl⟩ := exists_of_pull (by omega) hpull
  obtain ⟨hroom, rfl⟩ := storeAt_eq_some hstore
  obtain ⟨m, v, rfl⟩ := refresh_eq hrefresh
  have hxs : s ≠ x := by
    rintro rfl
    rw [sheetAt_natCast hroom, hsh.above _ (by omega)] at hx
    exact hstale ((sheetAt_natCast hroom).trans hx)
  refine ⟨?_, hsh.zTop, ?_⟩
  · calc (c.pulled (l.erase s).length x).pos s = c.pos s := pulled_pos_ne hxs
      _ = (ctl.setZ s l.length).pos s := hsh.pos s h.nodup.not_mem_erase
      _ = l.length := by rw [setZ_pos, if_pos rfl]
  · calc ((c.pulled (l.erase s).length x).sheet0 s).flags = (c.sheet0 s).flags := pulled_flags
      _ = (ctl.sheet0 s).flags := by rw [hsh.flags, setZ_flags]

end Layers

end UnagiOs
