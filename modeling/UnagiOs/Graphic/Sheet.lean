import Mathlib.Data.Fintype.Fin
import UnagiOs.Theory.Loops
import UnagiOs.Theory.Slots

/-!
# The sheets (drivers/graphic/sheet.c)

A sheet is a rectangle of pixels somewhere on, or off, the screen. The shown
sheets are stacked: `sheets[0..zTop]` lists them from bottom to top. `zMap` says
for each pixel of the screen which sheet is seen there.

A `SHEET *` is an index into `sheet0`, and `none` is `NULL`. An access outside
`sheets`, `zMap`, `vram` or a sheet's buffer, or through `NULL`, is stuck
(`none`). Coordinates are integers: their sums are taken not to overflow
`int32_t`. A buffer is given by its bytes, and the memory behind `vram` by its
contents. Every sheet has the same controller, so `sheet->ctl` is left out.
-/

namespace UnagiOs

/-- `OS_VGA_MAX_SHEETS`. -/
def osVgaMaxSheets : Nat := 256

/-- `COL8_000000`, black. -/
def col8_000000 : Int := 0

/-- `COL8_FFFFFF`, white. -/
def col8_FFFFFF : Int := 7

instance : NeZero osVgaMaxSheets := ⟨by decide⟩

/-- An index into `ctl->sheet0`. -/
abbrev SheetId := Fin osVgaMaxSheets

/-- `0` or `SHEET_IN_USE`. -/
inductive SheetFlags where
  | unused
  | inUse
deriving DecidableEq

/-- `TEXTBOX`, without the pointer back to its sheet. -/
structure TEXTBOX where
  bufXS : Int
  bufYS : Int
  bufXE : Int
  bufYE : Int
  lineBuf : Nat → UInt8
  boxX : Int
  boxY : Int
  lineEolPos : Int
  lineCharPos : Int
  bgColor : Int
  charBgColor : Int
  charColor : Int
  incrementX : Int
  incrementY : Int

/-- `SHEET`. -/
structure SHEET where
  buf : Array UInt8
  bufXsize : Int
  bufYsize : Int
  xStart : Int
  yStart : Int
  colorInvisible : Int
  z : Int
  flags : SheetFlags
  textbox : Option TEXTBOX

/-- `SHTCTL`. -/
structure SHTCTL where
  vram : Nat → UInt8
  zMap : Nat → UInt8
  xsize : Int
  ysize : Int
  zTop : Int
  sheets : Nat → Option SheetId
  sheet0 : SheetId → SHEET

namespace SHTCTL

/-- The entries `sheets[0..zTop]`. -/
def stack (ctl : SHTCTL) : List (Option SheetId) := slots ctl.sheets (ctl.zTop + 1).toNat

/-- The sheet that `sheets[z]` points to. -/
def sheetAt (ctl : SHTCTL) (z : Int) : Option SheetId :=
  if 0 ≤ z ∧ z < osVgaMaxSheets then ctl.sheets z.toNat else none

/-- Write to a slot of `sheets`. -/
def store (ctl : SHTCTL) (k : Nat) (sheet : SheetId) : SHTCTL :=
  { ctl with sheets := setSlot ctl.sheets k (some sheet) }

/-- `sheets[z] = sheet`. -/
def storeAt (ctl : SHTCTL) (z : Int) (sheet : SheetId) : Option SHTCTL :=
  if 0 ≤ z ∧ z < osVgaMaxSheets then some (ctl.store z.toNat sheet) else none

/-- Assign to a sheet. -/
def setSheet (ctl : SHTCTL) (sheet : SheetId) (v : SHEET) : SHTCTL :=
  { ctl with sheet0 := fun s => if s = sheet then v else ctl.sheet0 s }

/-- `sheet->z = z`. -/
def setZ (ctl : SHTCTL) (sheet : SheetId) (z : Int) : SHTCTL :=
  ctl.setSheet sheet { ctl.sheet0 sheet with z := z }

/-- The index of screen pixel `(x, y)` in `zMap` and `vram`. -/
def pixelIndex (ctl : SHTCTL) (x y : Int) : Option Nat :=
  let i := ctl.xsize * y + x
  if 0 ≤ i ∧ i < ctl.xsize * ctl.ysize then some i.toNat else none

end SHTCTL

/-- `buf[bufXsize * bufY + bufX]`. -/
def SHEET.pixel (s : SHEET) (bufX bufY : Int) : Option UInt8 :=
  let i := s.bufXsize * bufY + bufX
  if 0 ≤ i then s.buf[i.toNat]? else none

/-- `shtctl_init`, both allocations given. The memory is zeroed. -/
def shtctlInit (vram : Nat → UInt8) (xsize ysize : Int) : SHTCTL where
  vram := vram
  zMap := fun _ => 0
  xsize := xsize
  ysize := ysize
  zTop := -1
  sheets := fun _ => none
  sheet0 := fun _ =>
    { buf := #[], bufXsize := 0, bufYsize := 0, xStart := 0, yStart := 0, colorInvisible := 0,
      z := 0, flags := .unused, textbox := none }

/-- `sheet_alloc`: the new state and the sheet found. -/
def sheetAlloc (ctl : SHTCTL) : SHTCTL × Option SheetId :=
  match (List.finRange osVgaMaxSheets).find? fun s => (ctl.sheet0 s).flags = .unused with
  | none => (ctl, none)
  | some s =>
    (ctl.setSheet s { ctl.sheet0 s with flags := .inUse, z := -1, textbox := none }, some s)

/-- `sheet_textbox_alloc`, both allocations given. -/
def sheetTextboxAlloc (ctl : SHTCTL) (s : SheetId)
    (xS yS xE yE bgColor charBgColor charColor : Int) : SHTCTL :=
  ctl.setSheet s { ctl.sheet0 s with
    textbox := some
      { boxX := 0, boxY := 0, lineCharPos := 0, lineEolPos := 0, lineBuf := fun _ => 0
        bufXS := xS, bufYS := yS, bufXE := xE, bufYE := yE, incrementX := 8, incrementY := 28
        bgColor := if bgColor > -1 then bgColor else col8_000000
        charBgColor := if charBgColor > -1 then charBgColor else col8_000000
        charColor := if charColor > -1 then charColor else col8_FFFFFF } }

/-- `sheet_setbuf`. -/
def sheetSetbuf (ctl : SHTCTL) (sheet : SheetId) (buf : Array UInt8)
    (xsize ysize colorInvisible : Int) : SHTCTL :=
  ctl.setSheet sheet { ctl.sheet0 sheet with
    buf := buf, bufXsize := xsize, bufYsize := ysize, colorInvisible := colorInvisible }

/-! ## Drawing -/

/-- A rectangle, both corners included. -/
structure Rect where
  xStart : Int
  yStart : Int
  xEnd : Int
  yEnd : Int

/-- The pixels in the order of the two nested loops. -/
def Rect.pixels (r : Rect) : List (Int × Int) :=
  (Int.range r.yStart (r.yEnd + 1)).flatMap fun y =>
    (Int.range r.xStart (r.xEnd + 1)).map fun x => (x, y)

/-- Discard what is out of the screen, in one direction. -/
def clamp (size c : Int) : Int :=
  let c := if c < 0 then 0 else c
  if c ≥ size then size - 1 else c

/-- The part of the screen to redraw: one pixel more on each side, clamped. -/
def SHTCTL.clip (ctl : SHTCTL) (r : Rect) : Rect where
  xStart := clamp ctl.xsize (r.xStart - 1)
  yStart := clamp ctl.ysize (r.yStart - 1)
  xEnd := clamp ctl.xsize (r.xEnd + 1)
  yEnd := clamp ctl.ysize (r.yEnd + 1)

/-- The affected part of a sheet, in the coordinates of its buffer. -/
def SHEET.clip (s : SHEET) (r : Rect) : Rect where
  xStart := if r.xStart - s.xStart < 0 then 0 else r.xStart - s.xStart
  yStart := if r.yStart - s.yStart < 0 then 0 else r.yStart - s.yStart
  xEnd := if r.xEnd - s.xStart ≥ s.bufXsize then s.bufXsize - 1 else r.xEnd - s.xStart
  yEnd := if r.yEnd - s.yStart ≥ s.bufYsize then s.bufYsize - 1 else r.yEnd - s.yStart

/-- The area of a sheet at a position, as it is passed for redrawing. -/
def SHEET.areaAt (s : SHEET) (x y : Int) : Rect := ⟨x, y, x + s.bufXsize, y + s.bufYsize⟩

/-- One pixel of `sheet_update_zmap`. -/
def zmapPixel (ctl : SHTCTL) (sheetId : SheetId) (zMap : Nat → UInt8) (bufX bufY : Int) :
    Option (Nat → UInt8) := do
  let sheet := ctl.sheet0 sheetId
  let color ← sheet.pixel bufX bufY
  if (color.toNat : Int) ≠ sheet.colorInvisible then
    let i ← ctl.pixelIndex (sheet.xStart + bufX) (sheet.yStart + bufY)
    some (setSlot zMap i (UInt8.ofNat sheetId))
  else some zMap

/-- `sheet_update_zmap`. -/
def sheetUpdateZmap (ctl : SHTCTL) (r : Rect) (zStart : Int) : Option SHTCTL := do
  let zMap ← (Int.range zStart (ctl.zTop + 1)).foldlM
    (fun zMap z => do
      let sheetId ← ctl.sheetAt z
      ((ctl.sheet0 sheetId).clip (ctl.clip r)).pixels.foldlM
        (fun zMap p => zmapPixel ctl sheetId zMap p.1 p.2) zMap)
    ctl.zMap
  some { ctl with zMap := zMap }

/-- One pixel of the redrawing loops. -/
def vramPixel (ctl : SHTCTL) (sheetId : SheetId) (vram : Nat → UInt8) (bufX bufY : Int) :
    Option (Nat → UInt8) := do
  let sheet := ctl.sheet0 sheetId
  let color ← sheet.pixel bufX bufY
  let i ← ctl.pixelIndex (sheet.xStart + bufX) (sheet.yStart + bufY)
  some (if (ctl.zMap i).toNat = sheetId then setSlot vram i color else vram)

/-- `sheet_update_with_screenxy`. -/
def sheetUpdateWithScreenxy (ctl : SHTCTL) (r : Rect) (zStart zEnd : Int) : Option SHTCTL := do
  let zEnd := if zEnd = -1 then ctl.zTop else zEnd
  let vram ← (Int.range zStart (zEnd + 1)).foldlM
    (fun vram z => do
      let sheetId ← ctl.sheetAt z
      ((ctl.sheet0 sheetId).clip (ctl.clip r)).pixels.foldlM
        (fun vram p => vramPixel ctl sheetId vram p.1 p.2) vram)
    ctl.vram
  some { ctl with vram := vram }

/-- The whole of a sheet, in the coordinates of its buffer. -/
def SHEET.whole (s : SHEET) : Rect := ⟨0, 0, s.bufXsize - 1, s.bufYsize - 1⟩

/-- `sheet_update_all`. -/
def sheetUpdateAll (ctl : SHTCTL) : Option SHTCTL := do
  let vram ← (Int.range 0 (ctl.zTop + 1)).foldlM
    (fun vram z => do
      let sheetId ← ctl.sheetAt z
      (ctl.sheet0 sheetId).whole.pixels.foldlM
        (fun vram p => vramPixel ctl sheetId vram p.1 p.2) vram)
    ctl.vram
  some { ctl with vram := vram }

/-- `sheet_update_sheet`. -/
def sheetUpdateSheet (ctl : SHTCTL) (s : SheetId) (r : Rect) : Option SHTCTL :=
  let sheet := ctl.sheet0 s
  if sheet.z < 0 then some ctl
  else
    sheetUpdateWithScreenxy ctl
      ⟨sheet.xStart + r.xStart, sheet.yStart + r.yStart, sheet.xStart + r.xEnd,
        sheet.yStart + r.yEnd⟩ sheet.z sheet.z

/-! ## Stacking -/

/-- `sheets[z] = sheets[zSrc]; sheets[z]->z = z;` -/
def SHTCTL.pull (ctl : SHTCTL) (z zSrc : Int) : Option SHTCTL := do
  let sheet ← ctl.sheetAt zSrc
  let ctl ← ctl.storeAt z sheet
  some (ctl.setZ sheet z)

/-- Move everything atop DOWN by 1: `for (; z < zEnd; z++)`. -/
def SHTCTL.moveDown (ctl : SHTCTL) (z zEnd : Int) : Option SHTCTL :=
  (Int.range z zEnd).foldlM (fun ctl z => ctl.pull z (z + 1)) ctl

/-- Move everything UP by 1 to make space: `for (; z > zEnd; z--)`. -/
def SHTCTL.moveUp (ctl : SHTCTL) (z zEnd : Int) : Option SHTCTL :=
  (Int.range (zEnd + 1) (z + 1)).reverse.foldlM (fun ctl z => ctl.pull z (z - 1)) ctl

/-- The two updates at the end of `sheet_updown`. -/
def SHTCTL.refresh (ctl : SHTCTL) (r : Rect) (zStart zEnd : Int) : Option SHTCTL := do
  let ctl ← sheetUpdateZmap ctl r zStart
  sheetUpdateWithScreenxy ctl r zStart zEnd

/-- Normalize `zNew`. -/
def SHTCTL.normalize (ctl : SHTCTL) (zNew : Int) : Int :=
  let zNew := if zNew > ctl.zTop + 1 then ctl.zTop + 1 else zNew
  if zNew < -1 then -1 else zNew

/-- `sheet_updown`. -/
def sheetUpdown (ctl : SHTCTL) (sheet : SheetId) (zNew : Int) : Option SHTCTL := do
  let s := ctl.sheet0 sheet
  let zOriginal := s.z
  let zNew := ctl.normalize zNew
  let area := s.areaAt s.xStart s.yStart
  let ctl := ctl.setZ sheet zNew
  if zOriginal = zNew then
    some ctl
  else if zNew < 0 then
    -- to hide a sheet
    let ctl ← ctl.moveDown zOriginal ctl.zTop
    let ctl := { ctl with zTop := ctl.zTop - 1 }
    ctl.refresh area 0 (zOriginal - 1)
  else if zOriginal < 0 then
    -- to display what was hidden
    let ctl ← ctl.moveUp ctl.zTop zNew
    let ctl ← ctl.storeAt zNew sheet
    let ctl := { ctl with zTop := ctl.zTop + 1 }
    ctl.refresh area zNew zNew
  else if zOriginal > zNew then
    -- move something downwards
    let ctl ← ctl.moveUp zOriginal zNew
    let ctl ← ctl.storeAt zNew sheet
    ctl.refresh area zNew (zOriginal - 1)
  else
    -- move something up
    let ctl ← ctl.moveDown zOriginal zNew
    let ctl ← ctl.storeAt zNew sheet
    ctl.refresh area zNew zNew

/-- `sheet_slide`. -/
def sheetSlide (ctl : SHTCTL) (sheet : SheetId) (xDst yDst : Int) : Option SHTCTL := do
  let s := ctl.sheet0 sheet
  let ctl := ctl.setSheet sheet { s with xStart := xDst, yStart := yDst }
  if s.z < 0 then
    some ctl
  else
    let src := s.areaAt s.xStart s.yStart
    let dst := s.areaAt xDst yDst
    let ctl ← sheetUpdateZmap ctl src 0
    let ctl ← sheetUpdateZmap ctl dst s.z
    let ctl ← sheetUpdateWithScreenxy ctl src 0 (s.z - 1)
    sheetUpdateWithScreenxy ctl dst s.z s.z

/-- `sheet_textbox_free`. -/
def sheetTextboxFree (ctl : SHTCTL) (sheet : SheetId) : SHTCTL :=
  ctl.setSheet sheet { ctl.sheet0 sheet with textbox := none }

/-- `sheet_free`. -/
def sheetFree (ctl : SHTCTL) (sheet : SheetId) : Option SHTCTL :=
  let ctl := sheetTextboxFree ctl sheet
  let hidden := if (ctl.sheet0 sheet).z ≥ 0 then sheetUpdown ctl sheet (-1) else some ctl
  hidden.map fun ctl => ctl.setSheet sheet { ctl.sheet0 sheet with flags := .unused }

end UnagiOs
