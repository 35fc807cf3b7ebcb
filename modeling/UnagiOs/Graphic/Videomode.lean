import UnagiOs.Graphic.SheetPixels
import UnagiOs.Graphic.SheetRun

/-!
# The sheet under the mouse (drivers/graphic/videomode.c)

`get_sheet_by_cursor` looks for the sheet under the mouse by comparing coordinates. The
picture says which one it is: it is the sheet that `sheet_update_zmap` enters at the pixel
when the sheet of the mouse, on top of the stack, is left out (`DisplayedBelow`).

The comparison includes the column right of a sheet and the row below it.
`getSheetByCursor_iff`: the sheet found is the one displayed iff the cursor is not in that
column or row of the topmost sheet that reaches it.
-/

namespace UnagiOs

open List

/-- `SCREEN_MOUSEXY`. -/
structure SCREEN_MOUSEXY where
  mouseX : Int
  mouseY : Int
deriving DecidableEq

/-- `isCursorWithinSheet`. -/
def isCursorWithinSheet (ctl : SHTCTL) (xy : SCREEN_MOUSEXY) (s : Option SheetId) : Bool :=
  match s with
  | none => false
  | some s =>
    let sheet := ctl.sheet0 s
    decide (xy.mouseX ≥ sheet.xStart ∧ xy.mouseX - sheet.bufXsize ≤ sheet.xStart ∧
      xy.mouseY ≥ sheet.yStart ∧ xy.mouseY - sheet.bufYsize ≤ sheet.yStart)

/-- `get_sheet_by_cursor`. -/
def getSheetByCursor (ctl : SHTCTL) (xy : SCREEN_MOUSEXY) : Option SheetId :=
  -- `zTop` is the mouse
  (Int.range 0 ctl.zTop).reverse.findSome? fun i =>
    let s := ctl.sheetAt i
    if isCursorWithinSheet ctl xy s then s else none

/-- What is displayed at a pixel beneath the top sheet: whatever was in `zMap`, a
`sheet_update_zmap` of the screen without the top sheet enters `s` there, or nothing. -/
def DisplayedBelow (ctl : SHTCTL) (x y : Int) (s : Option SheetId) : Prop :=
  ∀ zMap, ∃ m, sheetUpdateZmap { ctl with zTop := ctl.zTop - 1, zMap := zMap }
      ⟨0, 0, ctl.xsize, ctl.ysize⟩ 0 = some { ctl with zTop := ctl.zTop - 1, zMap := m } ∧
    m (ctl.index x y) = (s.map fun t => UInt8.ofNat t.val).getD (zMap (ctl.index x y))

/-- All pixels of the sheet are seen. -/
def SHEET.Opaque (s : SHEET) : Prop := ∀ x y, s.Over x y → s.covers x y = true

variable {ctl : SHTCTL} {l below : List SheetId} {mouse : SheetId} {xy : SCREEN_MOUSEXY} {x y : Int}
  {s s' : Option SheetId}

/-! ## What is displayed -/

/-- Entering one sheet or another makes a difference. -/
theorem entered_inj (h : ∀ c : UInt8, (s.map fun t => UInt8.ofNat t.val).getD c =
    (s'.map fun t => UInt8.ofNat t.val).getD c) : s = s' := by
  have hone : ∀ t : SheetId, ∃ c, c ≠ UInt8.ofNat t.val := fun t =>
    ⟨UInt8.ofNat t.val + 1, by simp⟩
  cases s with
  | none =>
    cases s' with
    | none => rfl
    | some t =>
      obtain ⟨c, hc⟩ := hone t
      exact absurd (h c) hc
  | some t =>
    cases s' with
    | none =>
      obtain ⟨c, hc⟩ := hone t
      exact absurd (h c).symm hc
    | some t' =>
      have heq := congrArg UInt8.toNat (h 0)
      have ht : t.val < 256 := t.isLt
      have ht' : t'.val < 256 := t'.isLt
      simp only [Option.map_some, Option.getD_some, UInt8.toNat_ofNat', Nat.mod_eq_of_lt ht,
        Nat.mod_eq_of_lt ht'] at heq
      exact congrArg some (Fin.ext heq)

/-- One sheet at most is displayed. -/
theorem DisplayedBelow.unique (h : DisplayedBelow ctl x y s) (h' : DisplayedBelow ctl x y s') :
    s = s' := by
  refine entered_inj fun c => ?_
  obtain ⟨m, hm, hval⟩ := h fun _ => c
  obtain ⟨m', hm', hval'⟩ := h' fun _ => c
  have heq : m = m' := congrArg SHTCTL.zMap (Option.some.inj (hm.symm.trans hm'))
  rw [← hval, ← hval', heq]

/-- The topmost sheet below the mouse that has a pixel there is displayed. -/
theorem Layers.displayedBelow (h : Layers ctl (below ++ [mouse])) (hd : Drawable ctl)
    (hxy : ctl.OnScreen x y) : DisplayedBelow ctl x y (ctl.seen below x y) := by
  intro zMap
  have h₀ : Layers { ctl with zMap := zMap } (below ++ [mouse]) := h.congr rfl rfl rfl fun _ => rfl
  have hd₀ : Drawable { ctl with zMap := zMap } := ⟨hd.xsize, hd.ysize, hd.buf⟩
  obtain ⟨m, hm, hspec⟩ := h₀.updateZmap_take hd₀ ⟨0, 0, ctl.xsize, ctl.ysize⟩ 0
    (e := below.length) (by simp)
  have htop : (below.length : Int) = ctl.zTop := by
    have := h.top
    simp only [length_append, length_cons, length_nil] at this
    omega
  rw [htop] at hm
  rw [take_left] at hspec
  refine ⟨m, hm, ?_⟩
  have hin : (ctl.clip ⟨0, 0, ctl.xsize, ctl.ysize⟩).Contains x y := by
    rw [hd.clip_whole]
    exact ⟨⟨hxy.1.1, Int.le_sub_one_of_lt hxy.1.2⟩, hxy.2.1, Int.le_sub_one_of_lt hxy.2.2⟩
  exact (hspec x y hxy).trans (if_pos hin)

/-! ## What is found -/

/-- The pixel is in the rectangle of the sheet or on its far edges, the column right of it and the
row below it. -/
def SHEET.Reaches (s : SHEET) (x y : Int) : Prop :=
  (s.xStart ≤ x ∧ x ≤ s.xStart + s.bufXsize) ∧ s.yStart ≤ y ∧ y ≤ s.yStart + s.bufYsize

instance (s : SHEET) (x y : Int) : Decidable (s.Reaches x y) :=
  inferInstanceAs (Decidable (_ ∧ _))

/-- Of what a sheet reaches it does not lie over the far edges. -/
theorem SHEET.over_iff {s : SHEET} (h : s.Reaches x y) :
    s.Over x y ↔ x ≠ s.xStart + s.bufXsize ∧ y ≠ s.yStart + s.bufYsize := by
  simp only [SHEET.Reaches] at h
  simp only [SHEET.Over]
  omega

theorem SHEET.reaches_of_over {s : SHEET} (h : s.Over x y) : s.Reaches x y := by
  simp only [SHEET.Over] at h
  simp only [SHEET.Reaches]
  omega

/-- `isCursorWithinSheet` asks for what the sheet reaches. -/
theorem isCursorWithinSheet_eq (ctl : SHTCTL) (xy : SCREEN_MOUSEXY) (t : SheetId) :
    isCursorWithinSheet ctl xy (some t) =
      decide ((ctl.sheet0 t).Reaches xy.mouseX xy.mouseY) := by
  rw [isCursorWithinSheet, decide_eq_decide, SHEET.Reaches]
  omega

theorem SHEET.Opaque.covers_eq {s : SHEET} (h : s.Opaque) : s.covers x y = decide (s.Over x y) := by
  by_cases hover : s.Over x y
  · simp [hover, h x y hover]
  · rw [decide_eq_false hover]
    exact Bool.eq_false_iff.mpr fun hcov => hover (SHEET.over_of_covers hcov)

/-- The loop downwards from height `e` finds the topmost sheet below it. -/
theorem Layers.findSome?_range (h : Layers ctl l) (xy : SCREEN_MOUSEXY) {e : Nat}
    (he : e ≤ l.length) :
    ((Int.range 0 e).reverse.findSome? fun i =>
      let s := ctl.sheetAt i
      if isCursorWithinSheet ctl xy s then s else none) =
    topmost (fun t => decide ((ctl.sheet0 t).Reaches xy.mouseX xy.mouseY)) (l.take e) := by
  induction e with
  | zero => rfl
  | succ e ih =>
    have hget : l[e]? = some l[e] := getElem?_eq_getElem he
    have hsheet : ctl.sheetAt e = some l[e] := by
      rw [sheetAt_natCast (Nat.lt_of_lt_of_le he h.length_le)]
      exact ((Gap.full_iff (Nat.le_refl _)).mp h.slots e _ hget).1
    rw [Int.natCast_succ, range_succ_right (Int.natCast_nonneg e), reverse_append,
      reverse_singleton, singleton_append, findSome?_cons,
      ih (Nat.le_of_succ_le he), take_add_one, hget, Option.toList_some, topmost_append,
      topmost_singleton]
    simp only [hsheet, isCursorWithinSheet_eq]
    cases decide ((ctl.sheet0 l[e]).Reaches xy.mouseX xy.mouseY) <;> rfl

theorem Layers.getSheetByCursor_eq (h : Layers ctl (below ++ [mouse])) :
    getSheetByCursor ctl xy =
      topmost (fun t => decide ((ctl.sheet0 t).Reaches xy.mouseX xy.mouseY)) below := by
  have htop : ctl.zTop = (below.length : Int) := by
    have := h.top
    simp only [length_append, length_cons, length_nil] at this
    omega
  have hloop := h.findSome?_range xy (e := below.length) (by simp)
  rwa [take_left, ← htop] at hloop

/-- **`get_sheet_by_cursor` finds the sheet that is displayed beneath the mouse iff** the cursor
is not on a far edge of the topmost sheet that reaches it: for every stack of opaque sheets under
the mouse and every position on the screen. -/
theorem getSheetByCursor_iff (h : Layers ctl (below ++ [mouse])) (hd : Drawable ctl)
    (hsolid : ∀ t ∈ below, (ctl.sheet0 t).Opaque) (xy : SCREEN_MOUSEXY)
    (hxy : ctl.OnScreen xy.mouseX xy.mouseY) :
    DisplayedBelow ctl xy.mouseX xy.mouseY (getSheetByCursor ctl xy) ↔
      ∀ t, topmost (fun u => decide ((ctl.sheet0 u).Reaches xy.mouseX xy.mouseY)) below = some t →
        xy.mouseX ≠ (ctl.sheet0 t).xStart + (ctl.sheet0 t).bufXsize ∧
        xy.mouseY ≠ (ctl.sheet0 t).yStart + (ctl.sheet0 t).bufYsize := by
  have hshown := h.displayedBelow hd hxy
  have hseen : ctl.seen below xy.mouseX xy.mouseY =
      topmost (fun t => decide ((ctl.sheet0 t).Over xy.mouseX xy.mouseY)) below :=
    topmost_congr fun t ht => (hsolid t ht).covers_eq
  have hiff : DisplayedBelow ctl xy.mouseX xy.mouseY (getSheetByCursor ctl xy) ↔
      getSheetByCursor ctl xy = ctl.seen below xy.mouseX xy.mouseY :=
    ⟨fun hfound => hfound.unique hshown, fun heq => heq ▸ hshown⟩
  rw [hiff, hseen, h.getSheetByCursor_eq, topmost_eq_iff]
  · refine forall_congr' fun t => imp_congr_right fun ht => ?_
    rw [decide_eq_true_eq, SHEET.over_iff (of_decide_eq_true (topmost_mem ht).2)]
  · intro t ht
    exact decide_eq_true (SHEET.reaches_of_over (of_decide_eq_true ht))

instance (s : SHEET) : Decidable s.Opaque :=
  decidable_of_iff (∀ p ∈ s.whole.pixels, s.covers (s.xStart + p.1) (s.yStart + p.2) = true) <| by
    constructor
    · intro h x y hover
      have hp := h (x - s.xStart, y - s.yStart) (by
        rw [Rect.mem_pixels]
        simp only [SHEET.Over] at hover
        simp only [SHEET.whole]
        omega)
      rwa [add_sub_cancel, add_sub_cancel] at hp
    · intro h p hp
      rw [Rect.mem_pixels] at hp
      refine h _ _ ?_
      simp only [SHEET.whole] at hp
      simp only [SHEET.Over]
      omega

/-- A desktop, a window in its left upper corner and the mouse in the first row. -/
def windowAndMouse (mouseX : Int) : List SheetOp :=
  [.alloc, .setbuf 0 #[1, 1, 1, 1, 1, 1, 1, 1] 4 2 (-1), .alloc, .setbuf 1 #[8, 8] 2 1 (-1),
    .alloc, .setbuf 2 #[7] 1 1 99, .slide 2 mouseX 0, .updown 0 0, .updown 1 1, .updown 2 2]

/-- The mouse is over the window. -/
theorem getSheetByCursor_iff_window : ∃ ctl,
    sheetMachine.run (shtctlInit (fun _ => 0) 4 2) (windowAndMouse 1) = some ctl ∧
    DisplayedBelow ctl 1 0 (getSheetByCursor ctl ⟨1, 0⟩) := by
  obtain ⟨ctl, hrun, l, h, hd⟩ := exists_layers (fun _ => 0) 4 2 (by decide) (by decide)
    (windowAndMouse 1) (by decide +kernel)
  have hex : ∃ ctl, sheetMachine.run (shtctlInit (fun _ => 0) 4 2) (windowAndMouse 1) = some ctl ∧
      ctl.stack = [0, 1, 2].map some ∧
      (∀ t ∈ ([0, 1] : List SheetId), (ctl.sheet0 t).Opaque) ∧ ctl.OnScreen 1 0 ∧
      topmost (fun u => decide ((ctl.sheet0 u).Reaches 1 0)) [0, 1] = some 1 ∧
      1 ≠ (ctl.sheet0 1).xStart + (ctl.sheet0 1).bufXsize ∧
      0 ≠ (ctl.sheet0 1).yStart + (ctl.sheet0 1).bufYsize :=
    Machine.exists_run_of_any (by decide +kernel)
  obtain ⟨ctl', hrun', hstack, hsolid, hon, hfound, hright⟩ := hex
  cases hrun.symm.trans hrun'
  have hl : l = [0, 1] ++ [2] :=
    map_injective_iff.mpr (Option.some_injective _) (h.stack_eq.symm.trans hstack)
  subst hl
  refine ⟨ctl, hrun, (getSheetByCursor_iff h hd hsolid ⟨1, 0⟩ hon).mpr fun t ht => ?_⟩
  cases hfound.symm.trans ht
  exact hright

/-- With the cursor in the column right of the window the window is found, while the desktop is
displayed there. -/
theorem getSheetByCursor_right_of_window : ∃ ctl,
    sheetMachine.run (shtctlInit (fun _ => 0) 4 2) (windowAndMouse 2) = some ctl ∧
    getSheetByCursor ctl ⟨2, 0⟩ = some 1 ∧
    (sheetUpdateZmap { ctl with zTop := ctl.zTop - 1 } ⟨0, 0, 4, 2⟩ 0).map
      (fun below => below.zMap (ctl.index 2 0)) = some 0 :=
  Machine.exists_run_of_any (by decide +kernel)

end UnagiOs
