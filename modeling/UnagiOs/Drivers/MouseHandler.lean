import UnagiOs.Drivers.Ps2mouse
import UnagiOs.Graphic.Draw8
import UnagiOs.Graphic.SheetUpdown
import UnagiOs.Graphic.Videomode

/-!
# The mouse handler (kernel.c, drivers/graphic/videomode.c)

`int2ch_handler` is called for every byte of the mouse. It decodes the byte,
moves the cursor by the movement in the bundle and, while the left button is
held, raises and drags the sheet beneath the cursor.

The decoder does not say whether a packet is complete, and the movement of the
last packet stays in the bundle. So the handler applies it again at the first
and the second byte of the next packet. `cursor_right_iff`: the cursor is where
the packets lead iff that movement is absorbed each time, because it is zero or
because the border of the screen stops the cursor.
-/

namespace UnagiOs

open List

/-- The variables of the handler and of `videomode.c`: `bibk` is its screen size. -/
structure Desktop where
  ctl : Option SHTCTL
  sheetMouse : Option SheetId
  sheetWindow : Option SheetId
  sheetConsole : Option SheetId
  mouseX : Int
  mouseY : Int
  scrnx : Int
  scrny : Int
  mouseOneMove : MOUSE_DATA_BUNDLE

/-- `getMouseXY`. -/
def Desktop.getMouseXY (g : Desktop) : SCREEN_MOUSEXY := ⟨g.mouseX, g.mouseY⟩

/-- The bounds of `graphic_move_mouse`, in one direction. -/
def boundCursor (scrn new : Int) : Int :=
  let new := if new < 0 then 0 else new
  if new > scrn - 1 then scrn - 1 else new

/-- `graphic_move_mouse`. The picture of the cursor that it draws is not used. -/
def graphicMoveMouse (g : Desktop) (mouseOneMove : MOUSE_DATA_BUNDLE) : Option Desktop :=
  match g.ctl, g.sheetMouse with
  | some ctl, some sheetMouse => do
    let newX := boundCursor g.scrnx (g.mouseX + mouseOneMove.x.toInt)
    let newY := boundCursor g.scrny (g.mouseY - mouseOneMove.y.toInt)
    let ctl ← sheetSlide ctl sheetMouse newX newY
    some { g with mouseX := newX, mouseY := newY, ctl := some ctl }
  | _, _ => some g

section Handler

variable (hankaku : Nat → UInt8)

/-- `make_wtitle8` on the buffer of a sheet. -/
def SHTCTL.retitle (ctl : SHTCTL) (s : SheetId) (title : String) (isFocus : Bool) :
    Option SHTCTL := do
  let sheet := ctl.sheet0 s
  let buf ← makeWtitle8 hankaku sheet.buf sheet.bufXsize title isFocus
  some (ctl.setSheet s { sheet with buf := buf })

/-- The two calls of `make_wtitle8` in each branch of the handler. -/
def SHTCTL.retitleBoth (ctl : SHTCTL) (w c : SheetId) (focusW focusC : Bool) : Option SHTCTL := do
  let ctl ← ctl.retitle hankaku w "window" focusW
  ctl.retitle hankaku c "console" focusC

/-- `sheet_update_sheet(s, 0, 0, s->bufXsize, 21)`. -/
def SHTCTL.updateTitle (ctl : SHTCTL) (s : SheetId) : Option SHTCTL :=
  sheetUpdateSheet ctl s ⟨0, 0, (ctl.sheet0 s).bufXsize, 21⟩

/-- `sheet_slide(selected, ...)` at the end of the handler. -/
def SHTCTL.drag (ctl : SHTCTL) (selected : SheetId) (xy0 xy : SCREEN_MOUSEXY) : Option SHTCTL :=
  sheetSlide ctl selected ((ctl.sheet0 selected).xStart + xy.mouseX - xy0.mouseX)
    ((ctl.sheet0 selected).yStart + xy.mouseY - xy0.mouseY)

/-- What the handler does when the left button is pressed. -/
def leftButton (ctl : SHTCTL) (w c : Option SheetId) (xy0 xy : SCREEN_MOUSEXY) :
    Option SHTCTL :=
  match getSheetByCursor ctl xy0 with
  | none => some ctl
  | some selected => do
    -- every branch follows both pointers
    let w ← w
    let c ← c
    if selected = w then
      let ctl ← ctl.retitleBoth hankaku w c true false
      let ctl ← sheetUpdown ctl selected (ctl.zTop - 1)
      let ctl ← ctl.updateTitle c
      ctl.drag selected xy0 xy
    else if selected = c then
      let ctl ← ctl.retitleBoth hankaku w c false true
      let ctl ← sheetUpdown ctl selected (ctl.zTop - 1)
      let ctl ← ctl.updateTitle w
      ctl.drag selected xy0 xy
    else
      let ctl ← ctl.retitleBoth hankaku w c false false
      let ctl ← ctl.updateTitle w
      ctl.updateTitle c

/-- `int2ch_handler`. -/
def int2chHandler (g : Desktop) (scancode : BitVec 8) : Option Desktop := do
  let g := { g with mouseOneMove := ps2mouseDecode scancode g.mouseOneMove }
  let xy0 := g.getMouseXY
  let g ← graphicMoveMouse g g.mouseOneMove
  let xy := g.getMouseXY
  if g.mouseOneMove.btn &&& 0b1#32 ≠ 0 then
    let ctl ← g.ctl
    let ctl ← leftButton hankaku ctl g.sheetWindow g.sheetConsole xy0 xy
    some { g with ctl := some ctl }
  else some g

/-- The handler, fed one packet at a time. -/
def handlerMachine : Machine Desktop Packet where
  step g p := p.bytes.foldlM (int2chHandler hankaku) g

end Handler

/-! ## What the sheet calls leave alone -/

/-- The same screen with the same sheets, at the same places but for the sheet that is
moved; their heights and the contents of their buffers aside. -/
structure Redrawn (moved : Option SheetId) (ctl ctl' : SHTCTL) : Prop where
  xsize : ctl'.xsize = ctl.xsize
  ysize : ctl'.ysize = ctl.ysize
  flags : ∀ t, (ctl'.sheet0 t).flags = (ctl.sheet0 t).flags
  bufXsize : ∀ t, (ctl'.sheet0 t).bufXsize = (ctl.sheet0 t).bufXsize
  size : ∀ t, (ctl'.sheet0 t).buf.size = (ctl.sheet0 t).buf.size
  place : ∀ t, moved ≠ some t → (ctl'.sheet0 t).xStart = (ctl.sheet0 t).xStart ∧
    (ctl'.sheet0 t).yStart = (ctl.sheet0 t).yStart

variable {ctl ctl' ctl'' : SHTCTL} {l l' below : List SheetId} {s mouse w c : SheetId}
  {moved : Option SheetId} {hankaku : Nat → UInt8}

namespace Redrawn

theorem trans (h : Redrawn moved ctl ctl') (h' : Redrawn moved ctl' ctl'') :
    Redrawn moved ctl ctl'' where
  xsize := h'.xsize.trans h.xsize
  ysize := h'.ysize.trans h.ysize
  flags t := (h'.flags t).trans (h.flags t)
  bufXsize t := (h'.bufXsize t).trans (h.bufXsize t)
  size t := (h'.size t).trans (h.size t)
  place t ht := ⟨(h'.place t ht).1.trans (h.place t ht).1, (h'.place t ht).2.trans (h.place t ht).2⟩

/-- `zMap`, `vram`, the stack and the heights are no matter. -/
theorem of_sheet0 (hx : ctl'.xsize = ctl.xsize) (hy : ctl'.ysize = ctl.ysize)
    (h : ∀ t, ctl'.sheet0 t = { ctl.sheet0 t with z := (ctl'.sheet0 t).z }) :
    Redrawn moved ctl ctl' := by
  refine ⟨hx, hy, fun t => ?_, fun t => ?_, fun t => ?_, fun t _ => ?_⟩ <;> rw [h]
  exact ⟨rfl, rfl⟩

/-- Assigning to a sheet what has its size. -/
theorem setSheet {v : SHEET} (hflags : v.flags = (ctl.sheet0 s).flags)
    (hx : v.bufXsize = (ctl.sheet0 s).bufXsize) (hsize : v.buf.size = (ctl.sheet0 s).buf.size)
    (hplace : moved ≠ some s →
      v.xStart = (ctl.sheet0 s).xStart ∧ v.yStart = (ctl.sheet0 s).yStart) :
    Redrawn moved ctl (ctl.setSheet s v) := by
  refine ⟨rfl, rfl, fun t => ?_, fun t => ?_, fun t => ?_, fun t ht => ?_⟩ <;>
    by_cases hts : t = s <;> simp only [SHTCTL.setSheet, hts, if_true, if_false]
  · exact hflags
  · exact hx
  · exact hsize
  · exact hplace (hts ▸ ht)
  · exact ⟨trivial, trivial⟩

end Redrawn

/-- Whether or not it is stuck, `sheet_slide` moves the sheet and redraws. -/
theorem slide_sheet0 {x y : Int} (h : sheetSlide ctl s x y = some ctl') :
    ∃ m v, ctl' = { ctl.setSheet s { ctl.sheet0 s with xStart := x, yStart := y } with
      zMap := m, vram := v } := by
  simp only [sheetSlide] at h
  split at h
  · cases h
    exact ⟨_, _, rfl⟩
  · simp only [sheetUpdateZmap, sheetUpdateWithScreenxy, Option.bind_eq_bind,
      Option.bind_eq_some_iff, Option.some.injEq] at h
    obtain ⟨_, ⟨m₁, -, rfl⟩, _, ⟨m₂, -, rfl⟩, _, ⟨v₁, -, rfl⟩, v₂, -, rfl⟩ := h
    exact ⟨m₂, v₂, rfl⟩

theorem slide_place {x y : Int} (h : sheetSlide ctl s x y = some ctl') :
    (ctl'.sheet0 s).xStart = x ∧ (ctl'.sheet0 s).yStart = y := by
  obtain ⟨m, v, rfl⟩ := slide_sheet0 h
  simp [SHTCTL.setSheet]

theorem updateSheet_redrawn {r : Rect} (h : sheetUpdateSheet ctl s r = some ctl') :
    Redrawn moved ctl ctl' := by
  simp only [sheetUpdateSheet] at h
  split at h
  · cases h
    exact .of_sheet0 rfl rfl fun _ => rfl
  · simp only [sheetUpdateWithScreenxy, Option.bind_eq_bind, Option.bind_eq_some_iff,
      Option.some.injEq] at h
    obtain ⟨v, -, rfl⟩ := h
    exact .of_sheet0 rfl rfl fun _ => rfl

/-- A sheet in use whose buffer has room for its title. -/
structure Titled (ctl : SHTCTL) (s : SheetId) : Prop where
  inUse : (ctl.sheet0 s).flags = .inUse
  width : 80 ≤ (ctl.sheet0 s).bufXsize
  rows : HasRows (ctl.sheet0 s).buf.size 21 (ctl.sheet0 s).bufXsize

theorem Titled.redrawn (h : Titled ctl s) (hr : Redrawn moved ctl ctl') : Titled ctl' s := by
  refine ⟨?_, ?_, ?_⟩
  · rw [hr.flags]
    exact h.inUse
  · rw [hr.bufXsize]
    exact h.width
  · rw [hr.size, hr.bufXsize]
    exact h.rows

/-! ## The left button -/

/-- A call that comes back, with the stack `l` of the sheets there were. -/
def Redraws (moved : Option SheetId) (ctl : SHTCTL) (l : List SheetId) (call : Option SHTCTL) :
    Prop :=
  ∃ ctl', call = some ctl' ∧ Layers ctl' l ∧ Drawable ctl' ∧ Redrawn moved ctl ctl'

theorem Redraws.bind {call : Option SHTCTL} {next : SHTCTL → Option SHTCTL}
    (h : Redraws moved ctl l call) (hnext : ∀ ctl', Layers ctl' l → Drawable ctl' →
      Redrawn moved ctl ctl' → Redraws moved ctl' l' (next ctl')) :
    Redraws moved ctl l' (call.bind next) := by
  obtain ⟨ctl₁, heq₁, h₁, hd₁, hr₁⟩ := h
  obtain ⟨ctl₂, heq₂, h₂, hd₂, hr₂⟩ := hnext ctl₁ h₁ hd₁ hr₁
  refine ⟨ctl₂, ?_, h₂, hd₂, hr₁.trans hr₂⟩
  rw [heq₁, Option.bind_some, heq₂]

namespace Layers

section Calls

variable (h : Layers ctl l) (hd : Drawable ctl)

include h hd

theorem retitle_redraws (title : String) (isFocus : Bool) (hs : Titled ctl s)
    (hascii : ∀ c ∈ title.toList, c.toNat < 128) (hlen : title.toList.length ≤ 7) :
    Redraws moved ctl l (ctl.retitle hankaku s title isFocus) := by
  have hwidth := hs.width
  obtain ⟨buf, hbuf, hsize⟩ := makeWtitle8_draws hankaku isFocus hs.rows hascii (by omega)
    (ctl.sheet0 s).buf rfl
  refine ⟨ctl.setSheet s { ctl.sheet0 s with buf := buf }, ?_, h.setSheet rfl rfl,
    hd.setSheet ?_, .setSheet rfl rfl hsize fun _ => ⟨rfl, rfl⟩⟩
  · simp only [SHTCTL.retitle, hbuf, Option.bind_eq_bind, Option.bind_some]
  · rw [hsize]
    exact hd.buf s

theorem retitleBoth_redraws (focusW focusC : Bool) (hw : Titled ctl w) (hc : Titled ctl c) :
    Redraws moved ctl l (ctl.retitleBoth hankaku w c focusW focusC) :=
  (h.retitle_redraws hd "window" focusW hw (by simp) (by simp)).bind fun _ h' hd' hr =>
    h'.retitle_redraws hd' "console" focusC (hc.redrawn hr) (by simp) (by simp)

theorem updateTitle_redraws (hs : Titled ctl s) : Redraws moved ctl l (ctl.updateTitle s) := by
  obtain ⟨ctl', heq, h', hd'⟩ := h.updateSheet hd hs.inUse ⟨0, 0, (ctl.sheet0 s).bufXsize, 21⟩
  exact ⟨ctl', heq, h', hd', updateSheet_redrawn heq⟩

theorem updown_redraws {z : Int} (hu : (ctl.sheet0 s).flags = .inUse) (hr : ctl.InRange s z) :
    Redraws moved ctl (restack l s z) (sheetUpdown ctl s z) := by
  rcases h.updown_redraw hu hr with ⟨heq, hl⟩ | ⟨c, k, zEnd, hre, hl, hpic, heq⟩
  · exact ⟨ctl, heq, hl.symm ▸ h, hd, .of_sheet0 rfl rfl fun _ => rfl⟩
  · have hdc := hpic.drawable hd
    obtain ⟨ctl', heq', h', hd'⟩ := hl.refresh hdc (ctl.area s) (Int.natCast_nonneg k) hre.zEnd_lt
    obtain ⟨m, v, rfl⟩ := refresh_eq heq'
    exact ⟨_, heq.trans heq', h', hd', .of_sheet0 hpic.xsize hpic.ysize hpic.sheet0⟩

theorem slide_redraws (hu : (ctl.sheet0 s).flags = .inUse) (x y : Int) :
    Redraws (some s) ctl l (sheetSlide ctl s x y) := by
  obtain ⟨ctl', heq, h', hd'⟩ := h.slide hd hu x y
  refine ⟨ctl', heq, h', hd', ?_⟩
  obtain ⟨m, v, rfl⟩ := slide_sheet0 heq
  have hr : Redrawn (some s) ctl
      (ctl.setSheet s { ctl.sheet0 s with xStart := x, yStart := y }) :=
    .setSheet rfl rfl rfl fun hne => absurd rfl hne
  exact hr.trans (.of_sheet0 rfl rfl fun _ => rfl)

end Calls

/-- Raising a sheet that is shown to the place beneath the mouse. -/
theorem raise_redraws (h : Layers ctl (below ++ [mouse])) (hd : Drawable ctl) (hs : s ∈ below) :
    Redraws moved ctl (restack below s (below.length - 1) ++ [mouse])
      (sheetUpdown ctl s (ctl.zTop - 1)) := by
  have htop := h.top
  simp only [length_append, length_cons, length_nil] at htop
  have hu := h.inUse s (mem_append_left _ hs)
  have hpos : 0 ≤ ctl.pos s := (h.mem_iff hu).mp (mem_append_left _ hs)
  have hr : ctl.InRange s (ctl.zTop - 1) := by
    rw [SHTCTL.InRange, if_neg (Int.not_lt.mpr hpos)]
    omega
  have hz : ctl.zTop - 1 = (below.length : Int) - 1 := by omega
  rw [← hz, ← restack_append hs (by omega)]
  exact h.updown_redraws hd hu hr

/-- Raising and dragging a sheet, and drawing the title of another. -/
theorem select_redraws (h : Layers ctl (below ++ [mouse])) (hd : Drawable ctl) (hs : s ∈ below)
    (hc : Titled ctl c) (xy0 xy : SCREEN_MOUSEXY) :
    Redraws (some s) ctl (restack below s (below.length - 1) ++ [mouse])
      ((sheetUpdown ctl s (ctl.zTop - 1)).bind fun ctl =>
        (ctl.updateTitle c).bind fun ctl => ctl.drag s xy0 xy) := by
  have hu := h.inUse s (mem_append_left _ hs)
  refine (h.raise_redraws hd hs).bind fun ctl₁ h₁ hd₁ hr₁ => ?_
  refine (h₁.updateTitle_redraws hd₁ (hc.redrawn hr₁)).bind fun ctl₂ h₂ hd₂ hr₂ => ?_
  exact h₂.slide_redraws hd₂ ((hr₂.flags s).trans ((hr₁.flags s).trans hu)) _ _

/-- **The left button** leaves the mouse on top of the stack and where it is. -/
theorem leftButton_redraws (h : Layers ctl (below ++ [mouse])) (hd : Drawable ctl)
    (hw : Titled ctl w) (hc : Titled ctl c) (xy0 xy : SCREEN_MOUSEXY) :
    ∃ moved below', moved ≠ some mouse ∧
      Redraws moved ctl (below' ++ [mouse]) (leftButton hankaku ctl (some w) (some c) xy0 xy) := by
  unfold leftButton
  cases hsel : getSheetByCursor ctl xy0 with
  | none => exact ⟨none, below, nofun, ctl, rfl, h, hd, .of_sheet0 rfl rfl fun _ => rfl⟩
  | some selected =>
    rw [h.getSheetByCursor_eq] at hsel
    have hs : selected ∈ below := (topmost_mem hsel).1
    have hne : some selected ≠ some mouse := by
      intro heq
      cases heq
      exact (nodup_append.mp h.nodup).2.2 mouse hs mouse (by simp) rfl
    -- the two windows differ only in the title that is drawn
    have hfocus : ∀ (other : SheetId) (focusW focusC : Bool), Titled ctl other →
        Redraws (some selected) ctl (restack below selected (below.length - 1) ++ [mouse])
          ((ctl.retitleBoth hankaku w c focusW focusC).bind fun ctl =>
            (sheetUpdown ctl selected (ctl.zTop - 1)).bind fun ctl =>
              (ctl.updateTitle other).bind fun ctl => ctl.drag selected xy0 xy) := by
      intro other focusW focusC hother
      exact (h.retitleBoth_redraws hd focusW focusC hw hc).bind fun ctl₁ h₁ hd₁ hr₁ =>
        h₁.select_redraws hd₁ hs (hother.redrawn hr₁) xy0 xy
    simp only [Option.bind_eq_bind, Option.bind_some]
    by_cases hselw : selected = w
    · rw [if_pos hselw]
      exact ⟨some selected, _, hne, hfocus c true false hc⟩
    by_cases hselc : selected = c
    · rw [if_neg hselw, if_pos hselc]
      exact ⟨some selected, _, hne, hfocus w false true hw⟩
    · rw [if_neg hselw, if_neg hselc]
      refine ⟨none, below, nofun, ?_⟩
      refine (h.retitleBoth_redraws hd false false hw hc).bind fun ctl₁ h₁ hd₁ hr₁ => ?_
      exact (h₁.updateTitle_redraws hd₁ (hw.redrawn hr₁)).bind fun ctl₂ h₂ hd₂ hr₂ =>
        h₂.updateTitle_redraws hd₂ ((hc.redrawn hr₁).redrawn hr₂)

end Layers

/-! ## One byte -/

/-- The cursor moved by `dx` to the right and `dy` upwards, and kept on the screen. -/
def SCREEN_MOUSEXY.moveBy (scrnx scrny : Int) (xy : SCREEN_MOUSEXY) (dx dy : Int) :
    SCREEN_MOUSEXY :=
  ⟨clamp scrnx (xy.mouseX + dx), clamp scrny (xy.mouseY - dy)⟩

/-- Where the sheet of the mouse is. -/
def Desktop.pointer (g : Desktop) : Option SCREEN_MOUSEXY :=
  g.ctl.bind fun ctl => g.sheetMouse.map fun mouse =>
    ⟨(ctl.sheet0 mouse).xStart, (ctl.sheet0 mouse).yStart⟩

/-- The mouse is the top sheet, and the two windows have room for their titles. -/
structure Desk (ctl : SHTCTL) (mouse w c : SheetId) : Prop where
  layers : ∃ below, Layers ctl (below ++ [mouse])
  drawable : Drawable ctl
  window : Titled ctl w
  console : Titled ctl c

theorem Desk.redraws {call : Option SHTCTL} (h : Desk ctl mouse w c)
    (hcall : Redraws moved ctl (below ++ [mouse]) call) :
    ∃ ctl', call = some ctl' ∧ Desk ctl' mouse w c ∧ Redrawn moved ctl ctl' := by
  obtain ⟨ctl', heq, hl, hd, hr⟩ := hcall
  exact ⟨ctl', heq, ⟨⟨below, hl⟩, hd, h.window.redrawn hr, h.console.redrawn hr⟩, hr⟩

/-- **The desktop is set up**, and the cursor is on the screen. -/
structure Desktop.Ready (g : Desktop) (ctl : SHTCTL) (mouse w c : SheetId) : Prop where
  hasCtl : g.ctl = some ctl
  sheetMouse : g.sheetMouse = some mouse
  sheetWindow : g.sheetWindow = some w
  sheetConsole : g.sheetConsole = some c
  desk : Desk ctl mouse w c
  scrnx : g.scrnx = ctl.xsize
  scrny : g.scrny = ctl.ysize
  cursor : ctl.OnScreen g.mouseX g.mouseY

theorem boundCursor_eq (scrn new : Int) : boundCursor scrn new = clamp scrn new := by
  simp only [boundCursor, clamp]
  split <;> split <;> split <;> omega

variable {g : Desktop}

/-- What one call does with the cursor, the movement in the bundle aside. -/
structure Desktop.Moved (g : Desktop) (m : MOUSE_DATA_BUNDLE) (g' : Desktop) : Prop where
  scrnx : g'.scrnx = g.scrnx
  scrny : g'.scrny = g.scrny
  mouseOneMove : g'.mouseOneMove = m
  cursor : g'.getMouseXY = g.getMouseXY.moveBy g.scrnx g.scrny m.x.toInt m.y.toInt
  pointer : g'.pointer = some g'.getMouseXY

/-- `graphic_move_mouse` moves pointer and sheet, and the desktop stays ready. -/
theorem Desktop.Ready.graphicMoveMouse (h : g.Ready ctl mouse w c) :
    ∃ g' ctl', graphicMoveMouse g g.mouseOneMove = some g' ∧ g'.Ready ctl' mouse w c ∧
      g.Moved g.mouseOneMove g' := by
  obtain ⟨below, hl⟩ := h.desk.layers
  have hu := hl.inUse mouse (mem_append_right _ (mem_singleton_self mouse))
  obtain ⟨ctl', heq, hdesk, hr⟩ := h.desk.redraws (hl.slide_redraws h.desk.drawable hu
    (boundCursor g.scrnx (g.mouseX + g.mouseOneMove.x.toInt))
    (boundCursor g.scrny (g.mouseY - g.mouseOneMove.y.toInt)))
  obtain ⟨hx, hy⟩ := slide_place heq
  refine ⟨{ g with
      mouseX := boundCursor g.scrnx (g.mouseX + g.mouseOneMove.x.toInt)
      mouseY := boundCursor g.scrny (g.mouseY - g.mouseOneMove.y.toInt)
      ctl := some ctl' }, ctl', ?_,
    ⟨rfl, h.sheetMouse, h.sheetWindow, h.sheetConsole, hdesk, h.scrnx.trans hr.xsize.symm,
      h.scrny.trans hr.ysize.symm, ?_⟩, ⟨rfl, rfl, rfl, ?_, ?_⟩⟩
  · simp only [UnagiOs.graphicMoveMouse, h.hasCtl, h.sheetMouse, heq, Option.bind_eq_bind,
      Option.bind_some]
  · simp only [SHTCTL.OnScreen, boundCursor_eq, h.scrnx, h.scrny, hr.xsize, hr.ysize]
    exact ⟨clamp_bounds h.desk.drawable.xsize _, clamp_bounds h.desk.drawable.ysize _⟩
  · simp only [Desktop.getMouseXY, SCREEN_MOUSEXY.moveBy, boundCursor_eq]
  · simp only [Desktop.pointer, Desktop.getMouseXY, h.sheetMouse, Option.bind_some,
      Option.map_some, hx, hy]

/-- **One byte** is decoded, and the cursor moves by what is then in the bundle. -/
theorem Desktop.Ready.int2chHandler (h : g.Ready ctl mouse w c) (hankaku : Nat → UInt8)
    (scancode : BitVec 8) :
    ∃ g' ctl', int2chHandler hankaku g scancode = some g' ∧ g'.Ready ctl' mouse w c ∧
      g.Moved (ps2mouseDecode scancode g.mouseOneMove) g' := by
  obtain ⟨m, hm⟩ : ∃ m, m = ps2mouseDecode scancode g.mouseOneMove := ⟨_, rfl⟩
  have hdec : Desktop.Ready { g with mouseOneMove := m } ctl mouse w c :=
    ⟨h.hasCtl, h.sheetMouse, h.sheetWindow, h.sheetConsole, h.desk, h.scrnx, h.scrny, h.cursor⟩
  obtain ⟨g₁, ctl₁, heq₁, h₁, hmoved⟩ := hdec.graphicMoveMouse
  simp only [UnagiOs.int2chHandler, ← hm, Option.bind_eq_bind, heq₁, Option.bind_some]
  by_cases hbtn : g₁.mouseOneMove.btn &&& 0b1#32 ≠ 0
  · obtain ⟨below, hl⟩ := h₁.desk.layers
    obtain ⟨moved, below', hne, hcall⟩ := hl.leftButton_redraws h₁.desk.drawable h₁.desk.window
      h₁.desk.console g.getMouseXY g₁.getMouseXY
    obtain ⟨ctl₂, heq₂, hdesk, hr₂⟩ := h₁.desk.redraws hcall
    refine ⟨{ g₁ with ctl := some ctl₂ }, ctl₂, ?_, ⟨rfl, h₁.sheetMouse, h₁.sheetWindow,
      h₁.sheetConsole, hdesk, h₁.scrnx.trans hr₂.xsize.symm, h₁.scrny.trans hr₂.ysize.symm, ?_⟩,
      ⟨hmoved.scrnx, hmoved.scrny, hmoved.mouseOneMove, hmoved.cursor, ?_⟩⟩
    · rw [if_pos hbtn, h₁.hasCtl, h₁.sheetWindow, h₁.sheetConsole, Option.bind_some]
      exact congrArg (Option.bind · _) heq₂
    · simp only [SHTCTL.OnScreen, hr₂.xsize, hr₂.ysize]
      exact h₁.cursor
    · have hpointer := hmoved.pointer
      obtain ⟨hx, hy⟩ := hr₂.place mouse hne
      simp only [Desktop.pointer, h₁.hasCtl, h₁.sheetMouse, Option.bind_some, Option.map_some]
        at hpointer ⊢
      rw [hx, hy]
      exact hpointer
  · rw [if_neg hbtn]
    exact ⟨g₁, ctl₁, rfl, h₁, hmoved.scrnx, hmoved.scrny, hmoved.mouseOneMove, hmoved.cursor,
      hmoved.pointer⟩

/-! ## Packets -/

variable {p : Packet}

/-- **One packet** moves the cursor twice by the movement that was in the bundle, and then by
its own. -/
theorem Desktop.Ready.packet (h : g.Ready ctl mouse w c) (hphase : g.mouseOneMove.phase = 1#8)
    (hp : p.NoAck) :
    ∃ g' ctl', (handlerMachine hankaku).step g p = some g' ∧ g'.Ready ctl' mouse w c ∧
      g'.mouseOneMove.phase = 1#8 ∧ g'.scrnx = g.scrnx ∧ g'.scrny = g.scrny ∧
      g'.pointer = some g'.getMouseXY ∧
      g'.getMouseXY =
        ((g.getMouseXY.moveBy g.scrnx g.scrny g.mouseOneMove.x.toInt g.mouseOneMove.y.toInt).moveBy
          g.scrnx g.scrny g.mouseOneMove.x.toInt g.mouseOneMove.y.toInt).moveBy
          g.scrnx g.scrny p.dx p.dy := by
  obtain ⟨g₁, ctl₁, heq₁, h₁, hm₁⟩ := h.int2chHandler hankaku p.state
  obtain ⟨g₂, ctl₂, heq₂, h₂, hm₂⟩ := h₁.int2chHandler hankaku p.lowX
  obtain ⟨g₃, ctl₃, heq₃, h₃, hm₃⟩ := h₂.int2chHandler hankaku p.lowY
  -- the first two bytes leave the movement that was in the bundle
  have hstate : g₁.mouseOneMove = _ := hm₁.mouseOneMove.trans (Packet.decode_state hphase)
  have hlow : g₂.mouseOneMove = _ :=
    hm₂.mouseOneMove.trans ((congrArg _ hstate).trans (decode_second rfl hp.1))
  have hx₁ : g₁.mouseOneMove.x = g.mouseOneMove.x := by rw [hstate]
  have hy₁ : g₁.mouseOneMove.y = g.mouseOneMove.y := by rw [hstate]
  have hx₂ : g₂.mouseOneMove.x = g.mouseOneMove.x := by rw [hlow]
  have hy₂ : g₂.mouseOneMove.y = g.mouseOneMove.y := by rw [hlow]
  -- the third completes the packet
  have hbytes : g₃.mouseOneMove = decodeBytes g.mouseOneMove p.bytes := by
    rw [hm₃.mouseOneMove, hm₂.mouseOneMove, hm₁.mouseOneMove]
    rfl
  obtain ⟨hholds, hone⟩ := Packet.decode_bytes hphase hp
  rw [← hbytes] at hholds hone
  refine ⟨g₃, ctl₃, ?_, h₃, hone, ?_, ?_, hm₃.pointer, ?_⟩
  · simp only [handlerMachine, Packet.bytes, foldlM_cons, foldlM_nil, heq₁, heq₂, heq₃,
      Option.bind_eq_bind, Option.bind_some, Option.pure_def]
  · rw [hm₃.scrnx, hm₂.scrnx, hm₁.scrnx]
  · rw [hm₃.scrny, hm₂.scrny, hm₁.scrny]
  · rw [hm₃.cursor, ← hm₃.mouseOneMove, hholds.1, hholds.2.1, hm₂.cursor, ← hm₂.mouseOneMove, hx₂,
      hy₂, hm₁.cursor, ← hm₁.mouseOneMove, hx₁, hy₁, hm₂.scrnx, hm₂.scrny, hm₁.scrnx, hm₁.scrny]

/-- In one direction: from `c`, the movement `a` left in the bundle, made twice more, does not
show after `b`. It does not move the cursor, or `b` takes the cursor to the border anyway. -/
def Absorbed (size c a b : Int) : Prop :=
  let c₂ := clamp size (c + 2 * a)
  c₂ = c ∨ (c + b ≤ 0 ∧ c₂ + b ≤ 0) ∨ (size - 1 ≤ c + b ∧ size - 1 ≤ c₂ + b)

/-- The movement left in the bundle is absorbed by the packet, in both directions. -/
def Desktop.Absorbs (g : Desktop) (p : Packet) : Prop :=
  Absorbed g.scrnx g.mouseX g.mouseOneMove.x.toInt p.dx ∧
    Absorbed g.scrny g.mouseY (-g.mouseOneMove.y.toInt) (-p.dy)

instance (g : Desktop) (p : Packet) : Decidable (g.Absorbs p) :=
  inferInstanceAs (Decidable ((_ ∨ _ ∨ _) ∧ (_ ∨ _ ∨ _)))

theorem clamp_eq_max {size : Int} (hsize : 0 < size) (c : Int) :
    clamp size c = max 0 (min c (size - 1)) := by
  simp only [clamp]
  split <;> split <;> omega

theorem clamp_add_clamp {size c : Int} (hc : 0 ≤ c ∧ c < size) (a : Int) :
    clamp size (clamp size (c + a) + a) = clamp size (c + 2 * a) := by
  have hsize : 0 < size := by omega
  simp only [clamp_eq_max hsize]
  omega

/-- From two places of the screen, one movement leads to one place iff they are the same or the
movement takes both to the same border. -/
theorem clamp_add_eq_iff {size c d : Int} (hc : 0 ≤ c ∧ c < size) (hd : 0 ≤ d ∧ d < size)
    (b : Int) : clamp size (d + b) = clamp size (c + b) ↔
      d = c ∨ (c + b ≤ 0 ∧ d + b ≤ 0) ∨ (size - 1 ≤ c + b ∧ size - 1 ≤ d + b) := by
  have hsize : 0 < size := by omega
  rw [clamp_eq_max hsize, clamp_eq_max hsize]
  omega

theorem absorbed_iff {size c : Int} (hc : 0 ≤ c ∧ c < size) (a b : Int) :
    clamp size (clamp size (clamp size (c + a) + a) + b) = clamp size (c + b) ↔
      Absorbed size c a b := by
  have hsize : 0 < size := by omega
  rw [clamp_add_clamp hc, clamp_add_eq_iff hc (clamp_bounds hsize _)]
  rfl

theorem Desktop.Ready.absorbs_iff (h : g.Ready ctl mouse w c) :
    ((g.getMouseXY.moveBy g.scrnx g.scrny g.mouseOneMove.x.toInt g.mouseOneMove.y.toInt).moveBy
        g.scrnx g.scrny g.mouseOneMove.x.toInt g.mouseOneMove.y.toInt).moveBy
        g.scrnx g.scrny p.dx p.dy = g.getMouseXY.moveBy g.scrnx g.scrny p.dx p.dy ↔
      g.Absorbs p := by
  have hx : 0 ≤ g.mouseX ∧ g.mouseX < g.scrnx := h.scrnx ▸ h.cursor.1
  have hy : 0 ≤ g.mouseY ∧ g.mouseY < g.scrny := h.scrny ▸ h.cursor.2
  rw [Desktop.Absorbs, ← absorbed_iff hx, ← absorbed_iff hy]
  simp only [SCREEN_MOUSEXY.moveBy, Desktop.getMouseXY, SCREEN_MOUSEXY.mk.injEq, Int.sub_eq_add_neg]

/-- **The cursor is where the packets lead**, after each packet of a stream, iff the movement
that the packet before left in the bundle is absorbed every time. For every desktop that is set
up, every stream of packets without the byte 0xfa, and a decoder that waits for a packet. -/
theorem cursor_right_iff (h : g.Ready ctl mouse w c) (hphase : g.mouseOneMove.phase = 1#8)
    (ps : List Packet) (hps : ∀ p ∈ ps, p.NoAck) :
    (∀ qs, qs <+: ps → ∃ g', (handlerMachine hankaku).run g qs = some g' ∧
      g'.getMouseXY =
        qs.foldl (fun xy p => xy.moveBy g.scrnx g.scrny p.dx p.dy) g.getMouseXY ∧
      (qs ≠ [] → g'.pointer = some g'.getMouseXY)) ↔
    (handlerMachine hankaku).AllSteps (fun g p => g.Absorbs p) g ps := by
  rw [← Machine.always_iff_prefixes]
  have hinv : ∀ g' : Desktop, (∃ ctl, g'.Ready ctl mouse w c ∧ g'.mouseOneMove.phase = 1#8 ∧
      g'.scrnx = g.scrnx ∧ g'.scrny = g.scrny) → True := fun _ _ => trivial
  have hnoAck : (handlerMachine hankaku).AllSteps (fun _ p => p.NoAck) g ps :=
    Machine.AllSteps.of_mem fun p hp _ => hps p hp
  refine Machine.always_iff hinv ?_ ?_ ⟨ctl, h, hphase, rfl, rfl⟩ hnoAck
  · rintro g₁ p ⟨ctl₁, h₁, hone, hx, hy⟩ hp hok
    obtain ⟨g₂, ctl₂, hstep, h₂, hone₂, hx₂, hy₂, hpointer, hcursor⟩ := h₁.packet hone hp
    rw [h₁.absorbs_iff.mpr hok, hx, hy] at hcursor
    exact ⟨g₂, hstep, ⟨hcursor, hpointer⟩, ctl₂, h₂, hone₂, hx₂.trans hx, hy₂.trans hy⟩
  · rintro g₁ p g₂ ⟨ctl₁, h₁, hone, hx, hy⟩ hp hbad hstep ⟨hcursor, -⟩ -
    obtain ⟨g₂', ctl₂, hstep', h₂, -, -, -, -, hcursor'⟩ := h₁.packet hone hp
    cases hstep.symm.trans hstep'
    rw [← hx, ← hy] at hcursor
    exact hbad (h₁.absorbs_iff.mp (hcursor'.symm.trans hcursor))

/-- A desktop of eight pixels, the mouse, and a console and a window that are off the screen. -/
def smallDesktop : List SheetOp :=
  [.alloc, .setbuf 0 #[1, 1, 1, 1, 1, 1, 1, 1] 4 2 (-1), .alloc, .setbuf 1 #[7] 1 1 99,
    .alloc, .setbuf 2 (Array.replicate 1680 0) 80 21 (-1), .slide 2 4 2,
    .alloc, .setbuf 3 (Array.replicate 1680 0) 80 21 (-1), .slide 3 4 2,
    .updown 0 0, .updown 3 1, .updown 2 2, .updown 1 3]

/-- The variables after it, with the cursor in the left upper corner. -/
def smallDesktopOf (ctl : SHTCTL) : Desktop where
  ctl := some ctl
  sheetMouse := some 1
  sheetWindow := some 3
  sheetConsole := some 2
  mouseX := 0
  mouseY := 0
  scrnx := 4
  scrny := 2
  mouseOneMove := acknowledged

/-- One to the right with the right button pressed. -/
def oneRight : Packet := ⟨1, 0, 2, by decide, by decide⟩

/-- The right button is released. -/
def noMovement : Packet := ⟨0, 0, 0, by decide, by decide⟩

theorem cursor_right_iff_one_right : ∃ ctl,
    sheetMachine.run (shtctlInit (fun _ => 0) 4 2) smallDesktop = some ctl ∧
    ∃ g', (handlerMachine fun _ => 0).run (smallDesktopOf ctl) [noMovement, oneRight] = some g' ∧
      g'.getMouseXY = ⟨1, 0⟩ ∧ g'.pointer = some ⟨1, 0⟩ := by
  obtain ⟨ctl, hrun, l, h, hd⟩ := exists_layers (fun _ => 0) 4 2 (by decide) (by decide)
    smallDesktop (by decide +kernel)
  have hex : ∃ ctl, sheetMachine.run (shtctlInit (fun _ => 0) 4 2) smallDesktop = some ctl ∧
      ctl.stack = [0, 3, 2, 1].map some ∧
      (∀ s ∈ ([3, 2] : List SheetId), (ctl.sheet0 s).flags = .inUse ∧
        80 ≤ (ctl.sheet0 s).bufXsize ∧ (ctl.sheet0 s).bufXsize * 21 ≤ (ctl.sheet0 s).buf.size) ∧
      4 = ctl.xsize ∧ 2 = ctl.ysize ∧ ctl.OnScreen 0 0 ∧
      (handlerMachine fun _ => 0).AllSteps (fun g p => g.Absorbs p) (smallDesktopOf ctl)
        [noMovement, oneRight] :=
    Machine.exists_run_of_any (by decide +kernel)
  obtain ⟨ctl', hrun', hstack, htitled, hx, hy, hon, hsteps⟩ := hex
  cases hrun.symm.trans hrun'
  have hl : l = [0, 3, 2] ++ [1] :=
    map_injective_iff.mpr (Option.some_injective _) (h.stack_eq.symm.trans hstack)
  subst hl
  have hready : (smallDesktopOf ctl).Ready ctl 1 3 2 := by
    obtain ⟨hw, hww, hwr⟩ := htitled 3 (by decide)
    obtain ⟨hc, hcw, hcr⟩ := htitled 2 (by decide)
    exact ⟨rfl, rfl, rfl, rfl, ⟨⟨_, h⟩, hd, ⟨hw, hww, hwr⟩, hc, hcw, hcr⟩, hx, hy, hon⟩
  obtain ⟨g', hg', hcursor, hpointer⟩ := (cursor_right_iff hready rfl [noMovement, oneRight]
    (by decide)).mpr hsteps _ prefix_rfl
  have hend : g'.getMouseXY = ⟨1, 0⟩ := hcursor.trans rfl
  exact ⟨ctl, hrun, g', hg', hend, hend ▸ hpointer (by decide)⟩

/-- One to the right, and then no movement: the cursor goes three to the right. -/
theorem cursor_moves_three_times : ∃ ctl,
    sheetMachine.run (shtctlInit (fun _ => 0) 4 2) smallDesktop = some ctl ∧
    oneRight.bytes ++ noMovement.bytes = [0x0a, 0x01, 0x00, 0x08, 0x00, 0x00] ∧
    ((handlerMachine fun _ => 0).run (smallDesktopOf ctl) [oneRight, noMovement]).map
      (fun g => (g.getMouseXY, g.pointer)) = some (⟨3, 0⟩, some ⟨3, 0⟩) ∧
    [oneRight, noMovement].foldl (fun xy p => xy.moveBy 4 2 p.dx p.dy)
      (smallDesktopOf ctl).getMouseXY = ⟨1, 0⟩ :=
  Machine.exists_run_of_any (by decide +kernel)

end UnagiOs
