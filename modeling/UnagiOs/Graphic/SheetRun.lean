import UnagiOs.Theory.Machine
import UnagiOs.Graphic.SheetUpdown

/-!
# Runs of the sheet functions

Any sequence of calls on sheets in use, from `shtctl_init`. The stack of sheets is
in order (`Layered`) throughout a run iff no call of `sheet_updown` needs the slot
past the top (`layered_iff`).
-/

namespace UnagiOs

/-- The calls. Buffers are filled by other drivers: `draw` is one byte of that. -/
inductive SheetOp where
  | alloc
  | setbuf (sheet : SheetId) (buf : Array UInt8) (xsize ysize colorInvisible : Int)
  | textboxAlloc (sheet : SheetId) (xS yS xE yE bgColor charBgColor charColor : Int)
  | draw (sheet : SheetId) (i : Nat) (color : UInt8)
  | updateSheet (sheet : SheetId) (r : Rect)
  | updown (sheet : SheetId) (zNew : Int)
  | slide (sheet : SheetId) (xDst yDst : Int)
  | free (sheet : SheetId)

/-- The sheet functions as a machine. -/
def sheetMachine : Machine SHTCTL SheetOp where
  step ctl
    | .alloc => some (sheetAlloc ctl).1
    | .setbuf s buf xsize ysize colorInvisible =>
      some (sheetSetbuf ctl s buf xsize ysize colorInvisible)
    | .textboxAlloc s xS yS xE yE bgColor charBgColor charColor =>
      some (sheetTextboxAlloc ctl s xS yS xE yE bgColor charBgColor charColor)
    | .draw s i color =>
      some (ctl.setSheet s
        { ctl.sheet0 s with buf := (ctl.sheet0 s).buf.setIfInBounds i color })
    | .updateSheet s r => sheetUpdateSheet ctl s r
    | .updown s zNew => sheetUpdown ctl s zNew
    | .slide s xDst yDst => sheetSlide ctl s xDst yDst
    | .free s => sheetFree ctl s

/-- The calls are on sheets in use, a buffer has room for its pixels, and is not
written outside. -/
def SheetOp.Legal (ctl : SHTCTL) : SheetOp → Prop
  | .alloc => True
  | .setbuf s buf xsize ysize _ =>
    (ctl.sheet0 s).flags = .inUse ∧ xsize * ysize ≤ buf.size
  | .draw s i _ => (ctl.sheet0 s).flags = .inUse ∧ i < (ctl.sheet0 s).buf.size
  | .textboxAlloc s _ _ _ _ _ _ _ | .updateSheet s _ | .updown s _ | .slide s _ _ | .free s =>
    (ctl.sheet0 s).flags = .inUse

instance SheetOp.decidableLegal (ctl : SHTCTL) : ∀ op : SheetOp, Decidable (op.Legal ctl)
  | .alloc => .isTrue trivial
  | .setbuf _ _ _ _ _ | .draw _ _ _ => inferInstanceAs (Decidable (_ ∧ _))
  | .textboxAlloc _ _ _ _ _ _ _ _ | .updateSheet _ _ | .updown _ _ | .slide _ _ _ | .free _ =>
    inferInstanceAs (Decidable (_ = _))

/-- No call of `sheet_updown` needs the slot past the top. -/
def SheetOp.Safe (ctl : SHTCTL) : SheetOp → Prop
  | .updown s zNew => ctl.Movable s zNew
  | _ => True

instance SheetOp.decidableSafe (ctl : SHTCTL) : ∀ op : SheetOp, Decidable (op.Safe ctl)
  | .updown s zNew => inferInstanceAs (Decidable (ctl.Movable s zNew))
  | .alloc | .setbuf _ _ _ _ _ | .draw _ _ _ | .textboxAlloc _ _ _ _ _ _ _ _ | .updateSheet _ _
  | .slide _ _ _ | .free _ => .isTrue trivial

/-- **The stack is in order**: `sheets[0..zTop]` are different sheets in use, each
knows its slot, and every other sheet in use is hidden. -/
structure Layered (ctl : SHTCTL) : Prop where
  distinct : ctl.stack.Nodup
  shown : ∀ z, 0 ≤ z → z ≤ ctl.zTop →
    ∃ s, ctl.sheetAt z = some s ∧ (ctl.sheet0 s).flags = .inUse ∧ (ctl.sheet0 s).z = z
  hidden : ∀ s, (ctl.sheet0 s).flags = .inUse → some s ∉ ctl.stack → (ctl.sheet0 s).z = -1

/-- The calls that move a sheet keep the order of all the other sheets, and the other
calls move none. -/
def KeepsOrder (ctl : SHTCTL) (op : SheetOp) (ctl' : SHTCTL) : Prop :=
  match op with
  | .updown s _ | .free s =>
    ctl'.stack.filter (· ≠ some s) = ctl.stack.filter (· ≠ some s)
  | _ => ctl'.stack = ctl.stack

variable {ctl ctl' : SHTCTL} {l : List SheetId} {s : SheetId} {k : Nat} {op : SheetOp}

/-- In a stack in order, a sheet in use whose `z` is not negative is in that slot. -/
theorem Layered.slot (h : Layered ctl) (hu : (ctl.sheet0 s).flags = .inUse)
    (hk : ctl.pos s = k) : (k : Int) ≤ ctl.zTop ∧ ctl.sheets k = some s := by
  have hmem : some s ∈ ctl.stack := by
    by_contra hn
    have hz : ctl.pos s = -1 := h.hidden s hu hn
    omega
  obtain ⟨i, hi, hslot⟩ := mem_slots.mp hmem
  have hle : (i : Int) ≤ ctl.zTop := by omega
  obtain ⟨t, ht, -, hz⟩ := h.shown i (Int.natCast_nonneg i) hle
  cases hslot.symm.trans (sheetAt_eq_some ht).2
  have hik : (i : Int) = k := hz.symm.trans hk
  rw [← Int.ofNat_inj.mp hik]
  exact ⟨hle, hslot⟩

namespace Layers

variable (h : Layers ctl l)
include h

theorem stack_eq : ctl.stack = l.map some := by
  have hlen : (ctl.zTop + 1).toNat = l.length := by rw [h.top, Int.toNat_natCast]
  rw [SHTCTL.stack, hlen]
  refine List.ext_getElem (by simp) fun k hk _ => ?_
  rw [length_slots] at hk
  rw [getElem_slots, List.getElem_map]
  exact ((Gap.full_iff (Nat.le_refl _)).mp h.slots k _ (List.getElem?_eq_getElem hk)).1

theorem layered : Layered ctl := by
  refine ⟨?_, fun z hz hz' => ?_, fun s hu hs => ?_⟩
  · rw [h.stack_eq]
    exact h.nodup.map (Option.some_injective _)
  · obtain ⟨k, rfl⟩ := Int.eq_ofNat_of_zero_le hz
    have htop := h.top
    have hk : l[k]? = some l[k] := List.getElem?_eq_getElem (by omega)
    have hslot := ((Gap.full_iff (Nat.le_refl _)).mp h.slots k _ hk)
    refine ⟨l[k], ?_, h.inUse _ (List.getElem_mem _), hslot.2⟩
    rw [sheetAt_natCast (by have := h.length_le; omega), hslot.1]
  · rw [h.stack_eq, List.mem_map] at hs
    exact h.hidden s hu fun hmem => hs ⟨s, hmem, rfl⟩

/-- Restacking one sheet keeps the order of the others. -/
theorem keepsOrder {z : Int} (h' : Layers ctl' (restack l s z)) :
    ctl'.stack.filter (· ≠ some s) = ctl.stack.filter (· ≠ some s) := by
  have hmap : ∀ m : List SheetId,
      (m.map some).filter (· ≠ some s) = (m.filter (· ≠ s)).map some := by
    intro m
    simp [List.filter_map, Function.comp_def]
  rw [h'.stack_eq, h.stack_eq, hmap, hmap, filter_ne_restack h.nodup]

/-! ### The calls -/

/-- Assigning to a sheet, `z` and the flags aside, keeps the stack. -/
theorem setSheet {v : SHEET} (hz : v.z = ctl.pos s) (hflags : v.flags = (ctl.sheet0 s).flags) :
    Layers (ctl.setSheet s v) l := by
  refine h.congr rfl rfl (funext fun t => ?_) fun t => ?_
  · by_cases hts : t = s
    · simp [SHTCTL.pos, SHTCTL.setSheet, hts, hz]
    · simp [SHTCTL.pos, SHTCTL.setSheet, hts]
  · by_cases hts : t = s
    · simp [SHTCTL.setSheet, hts, hflags]
    · simp [SHTCTL.setSheet, hts]

/-- Assigning to a sheet that is not shown. -/
theorem setHidden {v : SHEET} (hs : s ∉ l) (hz : v.flags = .inUse → v.z = -1) :
    Layers (ctl.setSheet s v) l := by
  have hother : ∀ t, t ≠ s → (ctl.setSheet s v).sheet0 t = ctl.sheet0 t :=
    fun _ hts => if_neg hts
  have hl : ∀ t ∈ l, t ≠ s := fun t ht hts => hs (hts ▸ ht)
  refine ⟨h.top, h.slots.congr (fun _ _ => rfl) fun t ht => ?_, h.nodup, fun t ht => ?_,
    fun t hu ht => ?_⟩
  · exact congrArg SHEET.z (hother t (hl t ht))
  · rw [hother t (hl t ht)]
    exact h.inUse t ht
  · by_cases hts : t = s
    · subst hts
      simp only [SHTCTL.setSheet, SHTCTL.pos] at hu ⊢
      exact hz hu
    · rw [SHTCTL.pos, hother t hts]
      rw [hother t hts] at hu
      exact h.hidden t hu ht

/-- The sheet that `sheet_alloc` finds is not in use, so it is not shown. -/
theorem alloc (hd : Drawable ctl) : Layers (sheetAlloc ctl).1 l ∧ Drawable (sheetAlloc ctl).1 := by
  unfold sheetAlloc
  cases hf : (List.finRange osVgaMaxSheets).find? fun s => (ctl.sheet0 s).flags = .unused with
  | none => exact ⟨h, hd⟩
  | some s =>
    have hunused : (ctl.sheet0 s).flags = .unused := by simpa using List.find?_some hf
    refine ⟨h.setHidden (fun hs => ?_) fun _ => rfl, hd.setSheet (hd.buf s)⟩
    rw [h.inUse s hs] at hunused
    cases hunused

theorem updateSheet (hd : Drawable ctl) (hu : (ctl.sheet0 s).flags = .inUse) (r : Rect) :
    ∃ ctl', sheetUpdateSheet ctl s r = some ctl' ∧ Layers ctl' l ∧ Drawable ctl' := by
  simp only [sheetUpdateSheet]
  split
  next => exact ⟨ctl, rfl, h, hd⟩
  next hz =>
    have hpos : 0 ≤ ctl.pos s := Int.not_lt.mp hz
    exact h.updateWithScreenxy hd _ hpos (h.pos_lt hu)

/-- `sheet_slide` comes back, and the stack is the same. -/
theorem slide (hd : Drawable ctl) (hu : (ctl.sheet0 s).flags = .inUse) (xDst yDst : Int) :
    ∃ ctl', sheetSlide ctl s xDst yDst = some ctl' ∧ Layers ctl' l ∧ Drawable ctl' := by
  have hlt := h.pos_lt hu
  have h₀ : Layers (ctl.setSheet s { ctl.sheet0 s with xStart := xDst, yStart := yDst }) l :=
    h.setSheet rfl rfl
  have hd₀ : Drawable (ctl.setSheet s { ctl.sheet0 s with xStart := xDst, yStart := yDst }) :=
    hd.setSheet (hd.buf s)
  simp only [sheetSlide]
  split
  next => exact ⟨_, rfl, h₀, hd₀⟩
  next hz =>
    have hpos : 0 ≤ ctl.pos s := Int.not_lt.mp hz
    obtain ⟨c₁, hc₁, h₁, hd₁⟩ := h₀.updateZmap hd₀
      ((ctl.sheet0 s).areaAt (ctl.sheet0 s).xStart (ctl.sheet0 s).yStart) (Int.le_refl 0)
    obtain ⟨c₂, hc₂, h₂, hd₂⟩ := h₁.updateZmap hd₁ ((ctl.sheet0 s).areaAt xDst yDst) hpos
    obtain ⟨c₃, hc₃, h₃, hd₃⟩ := h₂.updateWithScreenxy hd₂
      ((ctl.sheet0 s).areaAt (ctl.sheet0 s).xStart (ctl.sheet0 s).yStart) (Int.le_refl 0)
      (Int.lt_trans (Int.sub_one_lt_of_le (Int.le_refl (ctl.pos s))) hlt)
    obtain ⟨c₄, hc₄, h₄, hd₄⟩ := h₃.updateWithScreenxy hd₃ ((ctl.sheet0 s).areaAt xDst yDst)
      hpos hlt
    refine ⟨c₄, ?_, h₄, hd₄⟩
    rw [hc₁, Option.bind_eq_bind, Option.bind_some]
    exact (congrArg (Option.bind · _) hc₂).trans ((congrArg (Option.bind · _) hc₃).trans hc₄)

/-- Hiding a sheet, whether it is shown or not. -/
theorem hide (hd : Drawable ctl) (hu : (ctl.sheet0 s).flags = .inUse) :
    ∃ ctl', (if (ctl.sheet0 s).z ≥ 0 then sheetUpdown ctl s (-1) else some ctl) = some ctl' ∧
      Layers ctl' (restack l s (-1)) ∧ Drawable ctl' := by
  have htop := h.top
  split
  next hz =>
    have hpos : ¬ ctl.pos s < 0 := Int.not_lt.mpr hz
    refine h.updown hu hd ?_
    rw [SHTCTL.Movable, if_neg hpos]
    exact .inl (by omega)
  next hz =>
    have hs : s ∉ l := fun hs => hz ((h.mem_iff hu).mp hs)
    rw [restack_neg (by decide), List.erase_of_not_mem hs]
    exact ⟨ctl, rfl, h, hd⟩

/-- Freeing a sheet takes it out of the stack. -/
theorem free (hd : Drawable ctl) (hu : (ctl.sheet0 s).flags = .inUse) :
    ∃ ctl', sheetFree ctl s = some ctl' ∧ Layers ctl' (restack l s (-1)) ∧ Drawable ctl' := by
  have h₀ : Layers (sheetTextboxFree ctl s) l := h.setSheet rfl rfl
  have hd₀ : Drawable (sheetTextboxFree ctl s) := hd.setSheet (hd.buf s)
  have hu₀ : ((sheetTextboxFree ctl s).sheet0 s).flags = .inUse :=
    (congrArg SHEET.flags (if_pos rfl)).trans hu
  have hout : s ∉ restack l s (-1) := by
    rw [restack_neg (by decide)]
    exact h.nodup.not_mem_erase
  obtain ⟨c, hc, h₁, hd₁⟩ := h₀.hide hd₀ hu₀
  refine ⟨c.setSheet s { c.sheet0 s with flags := .unused }, ?_, ?_, hd₁.setSheet (hd₁.buf s)⟩
  · simp only [sheetFree, hc, Option.map_some]
  · exact h₁.setHidden hout fun hfl => by cases hfl

/-- **A safe call** keeps the stack in order, and the order of the other sheets. -/
theorem step (hd : Drawable ctl) (hop : op.Legal ctl) (hsafe : op.Safe ctl) :
    ∃ ctl', sheetMachine.step ctl op = some ctl' ∧ KeepsOrder ctl op ctl' ∧
      ∃ l', Layers ctl' l' ∧ Drawable ctl' := by
  -- the calls that leave the list alone
  have hstill : ∀ ctl', Layers ctl' l → ctl'.stack = ctl.stack := fun ctl' h' => by
    rw [h'.stack_eq, h.stack_eq]
  cases op with
  | alloc =>
    obtain ⟨h', hd'⟩ := h.alloc hd
    exact ⟨_, rfl, hstill _ h', l, h', hd'⟩
  | setbuf s buf xsize ysize colorInvisible =>
    have h' : Layers (sheetSetbuf ctl s buf xsize ysize colorInvisible) l := h.setSheet rfl rfl
    exact ⟨_, rfl, hstill _ h', l, h', hd.setSheet hop.2⟩
  | textboxAlloc s xS yS xE yE bgColor charBgColor charColor =>
    have h' : Layers (sheetTextboxAlloc ctl s xS yS xE yE bgColor charBgColor charColor) l :=
      h.setSheet rfl rfl
    exact ⟨_, rfl, hstill _ h', l, h', hd.setSheet (hd.buf s)⟩
  | draw s i color =>
    refine ⟨_, rfl, hstill _ (h.setSheet rfl rfl), l, h.setSheet rfl rfl, hd.setSheet ?_⟩
    rw [Array.size_setIfInBounds]
    exact hd.buf s
  | updateSheet s r =>
    obtain ⟨ctl', heq, h', hd'⟩ := h.updateSheet hd hop r
    exact ⟨ctl', heq, hstill ctl' h', l, h', hd'⟩
  | updown s zNew =>
    obtain ⟨ctl', heq, h', hd'⟩ := h.updown hop hd hsafe
    exact ⟨ctl', heq, h.keepsOrder h', _, h', hd'⟩
  | slide s xDst yDst =>
    obtain ⟨ctl', heq, h', hd'⟩ := h.slide hd hop xDst yDst
    exact ⟨ctl', heq, hstill ctl' h', l, h', hd'⟩
  | free s =>
    obtain ⟨ctl', heq, h', hd'⟩ := h.free hd hop
    exact ⟨ctl', heq, h.keepsOrder h', _, h', hd'⟩

/-- **A call that is not safe** is stuck or leaves the stack out of order. -/
theorem not_layered (hop : op.Legal ctl) (hbad : ¬ op.Safe ctl)
    (heq : sheetMachine.step ctl op = some ctl') : ¬ Layered ctl' := by
  cases op with
  | updown s zNew =>
    intro hlayered
    have hu : (ctl.sheet0 s).flags = .inUse := hop
    have htop := h.top
    have hnorm := h.normalize_eq zNew
    simp only [SheetOp.Safe, SHTCTL.Movable] at hbad
    by_cases hs : s ∈ l
    · have hpos := (h.mem_iff hu).mp hs
      obtain ⟨i, hi⟩ := List.getElem?_of_mem hs
      rw [if_neg (Int.not_lt.mpr hpos), not_or] at hbad
      have hz : ctl.normalize zNew = l.length := by
        rw [hnorm]
        split <;> [omega; split <;> omega]
      obtain ⟨hpos', hzTop, hflags⟩ := h.move_past_top hi hz (htop ▸ hbad.2) heq
      have hle := (hlayered.slot (hflags.trans hu) hpos').1
      omega
    · have hpos := h.hidden s hu hs
      rw [if_pos (by omega), not_or] at hbad
      obtain ⟨j, rfl⟩ := Int.eq_ofNat_of_zero_le (Int.not_lt.mp hbad.1)
      rw [if_neg hbad.1, if_pos (by omega)] at hnorm
      obtain ⟨t, hut, hpost, hslot⟩ := h.show_inside hs hpos (by omega) hnorm heq
      exact hslot (hlayered.slot hut hpost).2
  | _ => exact absurd trivial hbad

end Layers

theorem shtctlInit_layers (vram : Nat → UInt8) (xsize ysize : Int) :
    Layers (shtctlInit vram xsize ysize) [] := by
  refine ⟨rfl, fun k x hk => ?_, List.nodup_nil, fun s hs => ?_, fun s hu => ?_⟩
  · cases hk
  · cases hs
  · cases hu

/-- The stack after a history of safe calls. -/
theorem exists_layers (vram : Nat → UInt8) (xsize ysize : Int) (hx : 0 < xsize) (hy : 0 < ysize)
    (ops : List SheetOp) (hops : sheetMachine.AllSteps (fun ctl op => op.Legal ctl ∧ op.Safe ctl)
      (shtctlInit vram xsize ysize) ops) :
    ∃ ctl, sheetMachine.run (shtctlInit vram xsize ysize) ops = some ctl ∧
      ∃ l, Layers ctl l ∧ Drawable ctl := by
  refine Machine.run_of_inv (fun ctl op h hop => ?_)
    ⟨[], shtctlInit_layers vram xsize ysize, hx, hy, fun _ => Int.le_refl 0⟩ hops
  obtain ⟨l, h, hd⟩ := h
  obtain ⟨ctl', heq, -, h'⟩ := h.step hd hop.1 hop.2
  exact ⟨ctl', heq, h'⟩

/-- **The stack stays in order iff the calls are safe.** Along every history of calls on
sheets in use: `sheets[0..zTop]` are different sheets in use with `sheets[z]->z = z`,
every other sheet in use has `z = -1`, and the order of the other sheets is kept, iff
`sheet_updown` shows a hidden sheet only above the top and moves a shown sheet only up
to the top. -/
theorem layered_iff (vram : Nat → UInt8) {xsize ysize : Int} (hx : 0 < xsize) (hy : 0 < ysize)
    (ops : List SheetOp) (hlegal : sheetMachine.AllSteps (fun ctl op => op.Legal ctl)
      (shtctlInit vram xsize ysize) ops) :
    sheetMachine.Always Layered KeepsOrder (shtctlInit vram xsize ysize) ops ↔
      sheetMachine.AllSteps (fun ctl op => op.Safe ctl) (shtctlInit vram xsize ysize) ops := by
  have hstart := shtctlInit_layers vram xsize ysize
  have hdraw : Drawable (shtctlInit vram xsize ysize) := ⟨hx, hy, fun _ => Int.le_refl 0⟩
  refine Machine.always_iff (fun ctl (h : ∃ l, Layers ctl l ∧ Drawable ctl) => ?_) ?_ ?_
    ⟨[], hstart, hdraw⟩ hlegal
  · obtain ⟨l, h, -⟩ := h
    exact h.layered
  · rintro ctl op ⟨l, h, hd⟩ hop hsafe
    exact h.step hd hop hsafe
  · rintro ctl op ctl' ⟨l, h, hd⟩ hop hbad heq -
    exact h.not_layered hop hbad heq

/-- The calls of `sheet_initialize` for a desktop, a mouse, a console and a window, on a
screen of eight pixels; then the window is clicked and the console closed. -/
theorem layered_iff_initialize :
    sheetMachine.Always Layered KeepsOrder (shtctlInit (fun _ => 0) 4 2)
      [.alloc, .setbuf 0 #[1, 1, 1, 1, 1, 1, 1, 1] 4 2 (-1), .slide 0 0 0,
        .alloc, .setbuf 1 #[99, 7] 1 2 99, .slide 1 2 1,
        .alloc, .setbuf 2 #[0, 0] 2 1 (-1), .textboxAlloc 2 0 0 1 1 0 (-1) 7, .slide 2 3 0,
        .alloc, .setbuf 3 #[8, 8] 2 1 (-1), .slide 3 (-1) 0,
        .updown 0 0, .updown 3 1, .updown 2 2, .updown 1 3,
        .updown 3 2, .draw 2 0 5, .updateSheet 2 ⟨0, 0, 2, 1⟩, .slide 3 1 1, .free 2] :=
  (layered_iff (fun _ => 0) (by decide) (by decide) _ (by decide +kernel)).mpr (by decide +kernel)

/-- Three sheets, the second hidden again. Showing the third at the bottom overwrites the
first, which keeps `z = 0`; above it the stack ends with the hidden sheet. -/
theorem stack_broken_by_show :
    sheetMachine.AllSteps (fun ctl op => op.Legal ctl) (shtctlInit (fun _ => 0) 320 200)
      [.alloc, .alloc, .alloc, .updown 0 0, .updown 1 1, .updown 1 (-1), .updown 2 0] ∧
    (sheetMachine.run (shtctlInit (fun _ => 0) 320 200)
      [.alloc, .alloc, .alloc, .updown 0 0, .updown 1 1, .updown 1 (-1), .updown 2 0]).map
      (fun ctl => (ctl.stack, (ctl.sheet0 0).z, (ctl.sheet0 1).z, (ctl.sheet0 2).z)) =
        some ([some 2, some 1], 0, -1, 0) := by
  decide +kernel

end UnagiOs
