import UnagiOs.Graphic.Kfprint
import UnagiOs.Graphic.LineBuffer

/-!
# Text boxes (drivers/graphic/videomode.c)

A text box is a rectangle in the buffer of a sheet, with a place where the next character goes. A
line is 28 pixels high. The place goes back to the top once a line would *start* below the
rectangle; whether the 16 rows of a character end in it is not looked at.

All pixels that are written are kept in a log, `Drawing.drawn`. `textbox_inside_iff`: they are
inside the rectangle, whatever is printed and filled, iff the rows of the characters that are not
blank fit in what is left below the last full line.
-/

namespace UnagiOs

open List

/-! ## The model -/

/-- A pixel of the buffer and what is written to it. -/
abbrev Dot := (Int × Int) × UInt8

/-- A text box, and what was written to the sheet's buffer so far. -/
structure Drawing where
  t : TEXTBOX
  drawn : List Dot

/-- `__v_textbox_xy_to_sheetxy` -/
def vTextboxXyToSheetxy (t : TEXTBOX) (textboxX textboxY : Int) : Int × Int :=
  let sX := textboxX + t.bufXS
  let sY := textboxY + t.bufYS
  (if sX ≥ t.bufXE then t.bufXE else sX, if sY ≥ t.bufYE then t.bufYE else sY)

/-- `v_textbox_boxfill8` -/
def vTextboxBoxfill8 (t : TEXTBOX) (color x0 y0 x1 y1 : Int) : List Dot :=
  let sheet0 := vTextboxXyToSheetxy t x0 y0
  let sheet1 := vTextboxXyToSheetxy t x1 y1
  (Rect.mk sheet0.1 sheet0.2 sheet1.1 sheet1.2).pixels.map (·, UInt8.ofInt color)

/-- Clear a line, from `boxX` on. -/
def vTextboxClearEol (t : TEXTBOX) : List Dot :=
  vTextboxBoxfill8 t t.bgColor t.boxX t.boxY t.bufXE (t.boxY + t.incrementY)

/-- The newline of `v_textbox_putfonts8_asc`. -/
def TEXTBOX.newline (t : TEXTBOX) : TEXTBOX :=
  let boxY := t.boxY + t.incrementY
  { t with boxX := 0, boxY := if boxY + t.bufYS > t.bufYE then 0 else boxY }

/-- The place after a character that is not a newline. -/
def TEXTBOX.advance (t : TEXTBOX) : TEXTBOX :=
  let boxX := t.boxX + t.incrementX
  let eol := boxX + t.bufXS + t.incrementX > t.bufXE
  let boxY := if eol then t.boxY + t.incrementY else t.boxY
  { t with
    boxX := if eol then 0 else boxX
    boxY := if boxY + t.bufYS > t.bufYE then 0 else boxY }

/-- A round of the loop of `v_textbox_putfonts8_asc`. -/
def vTextboxPutAsc (hankaku : Int → UInt8) (d : Drawing) (c : LineChar) : Drawing :=
  if c.1 = newline then
    { t := d.t.newline, drawn := d.drawn ++ vTextboxClearEol d.t ++ vTextboxClearEol d.t.newline }
  else
    { t := d.t.advance
      drawn := d.drawn ++ (glyphPixels (glyph hankaku c) (d.t.boxX + d.t.bufXS)
        (d.t.boxY + d.t.bufYS)).map (·, UInt8.ofInt d.t.charColor) }

/-- `v_textbox_putfonts8_asc`. The colour that it is given is not used. -/
def vTextboxPutfonts8Asc (hankaku : Int → UInt8) (d : Drawing) (_color : Int)
    (s : List LineChar) : Drawing :=
  s.foldl (vTextboxPutAsc hankaku) d

/-- `v_textbox_reset` -/
def vTextboxReset (d : Drawing) : Option Drawing :=
  let drawn := vTextboxBoxfill8 d.t d.t.bgColor 0 0 (d.t.bufXE - d.t.bufXS) (d.t.bufYE - d.t.bufYS)
  (vTextboxLinebufClear { d.t with boxX := 0, boxY := 0 }).map fun t =>
    { t, drawn := d.drawn ++ drawn }

/-- What is done with a text box. -/
inductive BoxOp where
  | putfonts8Asc (color : Int) (s : List LineChar)
  | boxfill8 (color : Int) (x0 y0 x1 y1 : Nat)
  | reset
  | line (op : LineOp)

def textboxMachine (hankaku : Int → UInt8) : Machine Drawing BoxOp where
  step d
    | .putfonts8Asc color s => some (vTextboxPutfonts8Asc hankaku d color s)
    | .boxfill8 color x0 y0 x1 y1 =>
      some { d with drawn := d.drawn ++ vTextboxBoxfill8 d.t color x0 y0 x1 y1 }
    | .reset => vTextboxReset d
    | .line op => (lineMachine.step d.t op).map fun t => { d with t }

/-! ## The rectangle -/

/-- A rectangle in a buffer, with room for a character. -/
structure TextArea (bufXsize bufYsize : Int) where
  xS : Int
  yS : Int
  xE : Int
  yE : Int
  left : 0 ≤ xS
  right : xE < bufXsize
  top : 0 ≤ yS
  bottom : yE < bufYsize
  wide : xS + 7 ≤ xE
  high : yS + 15 ≤ yE

variable {bufXsize bufYsize : Int} {a : TextArea bufXsize bufYsize}

def TextArea.Inside (a : TextArea bufXsize bufYsize) (p : Int × Int) : Prop :=
  (a.xS ≤ p.1 ∧ p.1 ≤ a.xE) ∧ a.yS ≤ p.2 ∧ p.2 ≤ a.yE

def TextArea.AllInside (a : TextArea bufXsize bufYsize) (dots : List Dot) : Prop :=
  ∀ dot ∈ dots, a.Inside dot.1

/-- No character has a pixel below the rest of the rectangle under its last full line. -/
def TextArea.FitsLast (a : TextArea bufXsize bufYsize) (hankaku : Int → UInt8) : Prop :=
  ∀ c : LineChar, c.1 ≠ newline → ∀ i < 16, glyph hankaku c i ≠ 0 → (i : Int) ≤ (a.yE - a.yS) % 28

/-- Room for 16 rows below the last full line is enough for any font. -/
theorem TextArea.fitsLast_of_room (h : 15 ≤ (a.yE - a.yS) % 28) (hankaku : Int → UInt8) :
    a.FitsLast hankaku := by
  intro c hc i hi hrow
  omega

/-- The text box of the console is such a rectangle. -/
def consoleArea : TextArea 256 165 where
  xS := 8
  yS := 28
  xE := 240
  yE := 128
  left := by decide
  right := by decide
  top := by decide
  bottom := by decide
  wide := by decide
  high := by decide

example (hankaku : Int → UInt8) : consoleArea.FitsLast hankaku :=
  consoleArea.fitsLast_of_room (by decide) hankaku

/-- A text box of the rectangle, with its place at the start of a character. -/
structure InArea (a : TextArea bufXsize bufYsize) (t : TEXTBOX) : Prop where
  bufXS : t.bufXS = a.xS
  bufYS : t.bufYS = a.yS
  bufXE : t.bufXE = a.xE
  bufYE : t.bufYE = a.yE
  incrementX : t.incrementX = 8
  incrementY : t.incrementY = 28
  boxX : 0 ≤ t.boxX ∧ t.boxX + a.xS + 7 ≤ a.xE
  boxY : 0 ≤ t.boxY ∧ t.boxY + a.yS ≤ a.yE
  lines : t.boxY % 28 = 0
  line : ∃ l, HoldsLine t l

/-! ## Where pixels are written -/

theorem allInside_append {dots dots' : List Dot} :
    a.AllInside (dots ++ dots') ↔ a.AllInside dots ∧ a.AllInside dots' :=
  forall_mem_append

theorem allInside_map {ps : List (Int × Int)} {color : UInt8} :
    a.AllInside (ps.map (·, color)) ↔ ∀ p ∈ ps, a.Inside p :=
  forall_mem_map

section Step

variable {hankaku : Int → UInt8} {t t' : TEXTBOX} {d : Drawing}

section Inside

variable (h : InArea a t)
include h

theorem InArea.xyToSheetxy {x y : Int} (hx : 0 ≤ x) (hy : 0 ≤ y) :
    a.Inside (vTextboxXyToSheetxy t x y) := by
  have hwide := a.wide
  have hhigh := a.high
  rw [vTextboxXyToSheetxy, h.bufXS, h.bufYS, h.bufXE, h.bufYE]
  constructor
  · show a.xS ≤ (if x + a.xS ≥ a.xE then a.xE else x + a.xS) ∧ _
    split <;> omega
  · show a.yS ≤ (if y + a.yS ≥ a.yE then a.yE else y + a.yS) ∧ _
    split <;> omega

/-- **Filling**: from the one corner to the other the pixels are inside, as the corners are. -/
theorem InArea.boxfill8 (color : Int) {x0 y0 x1 y1 : Int} (h0 : 0 ≤ x0 ∧ 0 ≤ y0)
    (h1 : 0 ≤ x1 ∧ 0 ≤ y1) : a.AllInside (vTextboxBoxfill8 t color x0 y0 x1 y1) := by
  obtain ⟨⟨hleft, -⟩, htop, -⟩ := h.xyToSheetxy h0.1 h0.2
  obtain ⟨⟨-, hright⟩, -, hbottom⟩ := h.xyToSheetxy h1.1 h1.2
  refine allInside_map.mpr fun p hp => ?_
  obtain ⟨hx, hy⟩ := Rect.mem_pixels.mp hp
  dsimp only at hx hy
  exact ⟨⟨hleft.trans hx.1, hx.2.trans hright⟩, htop.trans hy.1, hy.2.trans hbottom⟩

theorem InArea.clearEol : a.AllInside (vTextboxClearEol t) := by
  have hwide := a.wide
  have hleft := a.left
  obtain ⟨hx, -⟩ := h.boxX
  obtain ⟨hy, -⟩ := h.boxY
  refine h.boxfill8 t.bgColor ⟨hx, hy⟩ ⟨?_, ?_⟩
  · rw [h.bufXE]
    omega
  · rw [h.incrementY]
    omega

/-- **A character**: its columns always are inside, and its rows if they fit below the last full
line. -/
theorem InArea.glyphPixels {font : Nat → UInt8}
    (hfits : ∀ i < 16, font i ≠ 0 → (i : Int) ≤ (a.yE - a.yS) % 28) :
    ∀ p ∈ glyphPixels font (t.boxX + t.bufXS) (t.boxY + t.bufYS), a.Inside p := by
  intro p hp
  obtain ⟨i, hi, j, hj, hbit, rfl⟩ := mem_glyphPixels.mp hp
  have hrow : font i ≠ 0 := ne_zero_of_rowBit hbit
  have hlast := hfits i hi hrow
  obtain ⟨hx, hright⟩ := h.boxX
  obtain ⟨hy, hbottom⟩ := h.boxY
  have hlines := h.lines
  rw [h.bufXS, h.bufYS]
  constructor
  · show a.xS ≤ t.boxX + a.xS + j ∧ t.boxX + a.xS + j ≤ a.xE
    omega
  · show a.yS ≤ t.boxY + a.yS + i ∧ t.boxY + a.yS + i ≤ a.yE
    omega

/-! ## The place -/

theorem InArea.newline : InArea a t.newline := by
  have hwide := a.wide
  have hhigh := a.high
  obtain ⟨hy, hbottom⟩ := h.boxY
  have hlines := h.lines
  obtain ⟨l, hl⟩ := h.line
  have hY : t.newline.boxY = if t.boxY + 28 + a.yS > a.yE then 0 else t.boxY + 28 := by
    rw [TEXTBOX.newline, h.incrementY, h.bufYS, h.bufYE]
  refine ⟨h.bufXS, h.bufYS, h.bufXE, h.bufYE, h.incrementX, h.incrementY, ?_, ?_, ?_,
    l, hl.lineBuf, hl.lineEolPos, hl.lineCharPos, hl.room⟩
  · show 0 ≤ (0 : Int) ∧ (0 : Int) + a.xS + 7 ≤ a.xE
    omega
  · rw [hY]
    split <;> omega
  · rw [hY]
    split <;> omega

/-- After a character the cursor is in the area again. -/
theorem InArea.advance : InArea a t.advance := by
  have hwide := a.wide
  have hhigh := a.high
  obtain ⟨hx, hright⟩ := h.boxX
  obtain ⟨hy, hbottom⟩ := h.boxY
  have hlines := h.lines
  obtain ⟨l, hl⟩ := h.line
  have hX : t.advance.boxX = if t.boxX + 8 + a.xS + 8 > a.xE then 0 else t.boxX + 8 := by
    rw [TEXTBOX.advance, h.incrementX, h.bufXS, h.bufXE]
  have hY : t.advance.boxY =
      let boxY := if t.boxX + 8 + a.xS + 8 > a.xE then t.boxY + 28 else t.boxY
      if boxY + a.yS > a.yE then 0 else boxY := by
    rw [TEXTBOX.advance, h.incrementX, h.incrementY, h.bufXS, h.bufXE, h.bufYS, h.bufYE]
  refine ⟨h.bufXS, h.bufYS, h.bufXE, h.bufYE, h.incrementX, h.incrementY, ?_, ?_, ?_,
    l, hl.lineBuf, hl.lineEolPos, hl.lineCharPos, hl.room⟩
  · rw [hX]
    split <;> omega
  · rw [hY]
    dsimp only
    split <;> split <;> omega
  · rw [hY]
    dsimp only
    split <;> split <;> omega

theorem InArea.home : InArea a { t with boxX := 0, boxY := 0 } := by
  have hwide := a.wide
  have hhigh := a.high
  obtain ⟨l, hl⟩ := h.line
  refine ⟨h.bufXS, h.bufYS, h.bufXE, h.bufYE, h.incrementX, h.incrementY, ?_, ?_, rfl,
    l, hl.lineBuf, hl.lineEolPos, hl.lineCharPos, hl.room⟩
  · show 0 ≤ (0 : Int) ∧ (0 : Int) + a.xS + 7 ≤ a.xE
    omega
  · show 0 ≤ (0 : Int) ∧ (0 : Int) + a.yS ≤ a.yE
    omega

theorem InArea.sameBox (hsame : SameBox t t') {l : Line} (hl : HoldsLine t' l) : InArea a t' := by
  obtain ⟨lineBuf, lineEolPos, lineCharPos, rfl⟩ := hsame
  exact ⟨h.bufXS, h.bufYS, h.bufXE, h.bufYE, h.incrementX, h.incrementY, h.boxX, h.boxY, h.lines,
    l, hl⟩

end Inside

/-! ## Operations -/

/-- The place is in the rectangle, and so is what was drawn. -/
structure DrawnInside (a : TextArea bufXsize bufYsize) (d : Drawing) : Prop where
  area : InArea a d.t
  inside : a.AllInside d.drawn

theorem DrawnInside.putAsc (hfits : a.FitsLast hankaku) (h : DrawnInside a d) (c : LineChar) :
    DrawnInside a (vTextboxPutAsc hankaku d c) := by
  rw [vTextboxPutAsc]
  split
  case isTrue =>
    have hnext := h.area.newline
    refine ⟨hnext, allInside_append.mpr ⟨allInside_append.mpr ⟨h.inside, ?_⟩, ?_⟩⟩
    · exact h.area.clearEol
    · exact hnext.clearEol
  case isFalse hc =>
    refine ⟨h.area.advance, allInside_append.mpr ⟨h.inside, allInside_map.mpr ?_⟩⟩
    exact h.area.glyphPixels (hfits c hc)

theorem DrawnInside.putfonts8Asc (hfits : a.FitsLast hankaku) (h : DrawnInside a d) (color : Int)
    (s : List LineChar) : DrawnInside a (vTextboxPutfonts8Asc hankaku d color s) := by
  rw [vTextboxPutfonts8Asc]
  induction s generalizing d with
  | nil => exact h
  | cons c s ih => exact ih (h.putAsc hfits c)

theorem DrawnInside.reset (h : DrawnInside a d) :
    ∃ d', vTextboxReset d = some d' ∧ DrawnInside a d' := by
  have hwide := a.wide
  have hhigh := a.high
  have hhome := h.area.home
  obtain ⟨l, hl⟩ := hhome.line
  obtain ⟨t', hclear, hholds⟩ := hl.clear
  rw [vTextboxReset, hclear]
  refine ⟨_, rfl, hhome.sameBox (sameBox_clear hclear) hholds,
    allInside_append.mpr ⟨h.inside, h.area.boxfill8 _ ⟨le_rfl, le_rfl⟩ ⟨?_, ?_⟩⟩⟩
  · rw [h.area.bufXE, h.area.bufXS]
    omega
  · rw [h.area.bufYE, h.area.bufYS]
    omega

/-- **One operation.** -/
theorem DrawnInside.step (hfits : a.FitsLast hankaku) (h : DrawnInside a d) (op : BoxOp) :
    ∃ d', (textboxMachine hankaku).step d op = some d' ∧ DrawnInside a d' := by
  cases op with
  | putfonts8Asc color s => exact ⟨_, rfl, h.putfonts8Asc hfits color s⟩
  | boxfill8 color x0 y0 x1 y1 =>
    refine ⟨_, rfl, h.area, allInside_append.mpr ⟨h.inside, ?_⟩⟩
    exact h.area.boxfill8 color ⟨Int.natCast_nonneg x0, Int.natCast_nonneg y0⟩
      ⟨Int.natCast_nonneg x1, Int.natCast_nonneg y1⟩
  | reset => exact h.reset
  | line op =>
    obtain ⟨l, hl⟩ := h.area.line
    obtain ⟨t', hstep, hholds⟩ := hl.step op
    refine ⟨{ d with t := t' }, ?_, h.area.sameBox (sameBox_step hstep) hholds, h.inside⟩
    show (lineMachine.step d.t op).map _ = _
    rw [hstep]
    rfl

/-- **Any operations.** -/
theorem DrawnInside.run (hfits : a.FitsLast hankaku) (h : DrawnInside a d) (ops : List BoxOp) :
    ∃ d', (textboxMachine hankaku).run d ops = some d' ∧ DrawnInside a d' :=
  Machine.run_of_inv (fun _ op hd _ => DrawnInside.step hfits hd op) h
    (Machine.AllSteps.of_mem fun _ _ _ => trivial)

/-! ## The last line -/

/-- A newline in a text. -/
def newlineChar : LineChar := ⟨newline, by decide⟩

theorem putAsc_newlineChar : (vTextboxPutAsc hankaku d newlineChar).t = d.t.newline := rfl

/-- As many newlines as there are full lines lead to the last one, without wrapping. -/
theorem newlines_place (h : InArea a d.t) (hY : d.t.boxY = 0) {k : Nat}
    (hk : 28 * k + a.yS ≤ a.yE) :
    InArea a ((List.replicate k newlineChar).foldl (vTextboxPutAsc hankaku) d).t ∧
      ((List.replicate k newlineChar).foldl (vTextboxPutAsc hankaku) d).t.boxY = 28 * k := by
  induction k with
  | zero => exact ⟨h, hY⟩
  | succ k ih =>
    obtain ⟨harea, hplace⟩ := ih (by omega)
    rw [replicate_succ', foldl_append, foldl_cons, foldl_nil,
      putAsc_newlineChar]
    refine ⟨harea.newline, ?_⟩
    rw [TEXTBOX.newline, harea.incrementY, harea.bufYS, harea.bufYE, hplace]
    dsimp only
    rw [if_neg (by omega)]
    omega

/-- What is drawn on the last line is inside only if it fits. -/
theorem fitsLast_of_inside (h : InArea a t) (hY : t.boxY = 0)
    (hinside : ∀ s, a.AllInside (vTextboxPutfonts8Asc hankaku ⟨t, []⟩ 0 s).drawn) :
    a.FitsLast hankaku := by
  intro c hc i hi hrow
  obtain ⟨j, hj, hbit⟩ := exists_rowBit hrow
  have hhigh := a.high
  obtain ⟨harea, hplace⟩ :=
    newlines_place (k := ((a.yE - a.yS) / 28).toNat) (d := ⟨t, []⟩) h hY (by omega)
  have hall := hinside (List.replicate ((a.yE - a.yS) / 28).toNat newlineChar ++ [c])
  rw [vTextboxPutfonts8Asc, foldl_append, foldl_cons, foldl_nil, vTextboxPutAsc,
    if_neg hc] at hall
  obtain ⟨-, -, hbottom⟩ := allInside_map.mp (allInside_append.mp hall).2 _
    (mem_glyphPixels.mpr ⟨i, hi, j, hj, hbit, rfl⟩)
  dsimp only at hbottom
  rw [hplace, harea.bufYS] at hbottom
  omega

end Step

theorem inArea_alloc (ctl : SHTCTL) (s : SheetId) (bgColor charBgColor charColor : Int) :
    ∃ t, ((sheetTextboxAlloc ctl s a.xS a.yS a.xE a.yE bgColor charBgColor charColor).sheet0
        s).textbox = some t ∧ InArea a t ∧ t.boxY = 0 := by
  have hwide := a.wide
  have hhigh := a.high
  rw [sheetTextboxAlloc, SHTCTL.setSheet]
  simp only [if_pos]
  refine ⟨_, rfl, ⟨rfl, rfl, rfl, rfl, rfl, rfl, ?_, ?_, rfl, .empty, rfl, rfl, rfl, by decide⟩,
    rfl⟩
  · show 0 ≤ (0 : Int) ∧ (0 : Int) + a.xS + 7 ≤ a.xE
    omega
  · show 0 ≤ (0 : Int) ∧ (0 : Int) + a.yS ≤ a.yE
    omega

/-- **A text box** writes to its rectangle only, from its allocation on and whatever is done with
it, iff no character has a pixel below the rest of the rectangle under the last full line. -/
theorem textbox_inside_iff (hankaku : Int → UInt8) (ctl : SHTCTL) (s : SheetId)
    (a : TextArea (ctl.sheet0 s).bufXsize (ctl.sheet0 s).bufYsize)
    (bgColor charBgColor charColor : Int) :
    ∃ t, ((sheetTextboxAlloc ctl s a.xS a.yS a.xE a.yE bgColor charBgColor charColor).sheet0
        s).textbox = some t ∧
      ((∀ ops, ∃ d, (textboxMachine hankaku).run ⟨t, []⟩ ops = some d ∧ a.AllInside d.drawn) ↔
        a.FitsLast hankaku) := by
  obtain ⟨t, halloc, harea, hY⟩ := inArea_alloc ctl s bgColor charBgColor charColor
  refine ⟨t, halloc, ?_⟩
  constructor
  · intro hall
    refine fitsLast_of_inside harea hY fun text => ?_
    obtain ⟨d, hrun, hinside⟩ := hall [.putfonts8Asc 0 text]
    cases hrun
    exact hinside
  · intro hfits ops
    have hstart : DrawnInside a ⟨t, []⟩ := ⟨harea, fun dot hdot => absurd hdot not_mem_nil⟩
    obtain ⟨d, hrun, htidy⟩ := hstart.run hfits ops
    exact ⟨d, hrun, htidy.inside⟩

/-- A sheet of 16 x 64 pixels. -/
def narrowSheet : SHTCTL :=
  sheetSetbuf (shtctlInit (fun _ => 0) 320 200) 0 (Array.replicate 1024 0) 16 64 (-1)

/-- A rectangle of 16 x 29 pixels, at the top of it. -/
def narrowArea : TextArea (narrowSheet.sheet0 0).bufXsize (narrowSheet.sheet0 0).bufYsize where
  xS := 0
  yS := 0
  xE := 15
  yE := 28
  left := le_rfl
  right := by decide
  top := le_rfl
  bottom := by decide
  wide := by decide
  high := by decide

/-- An A on its second line. The line starts in row 28, the last one; the A has pixels in row 29. -/
theorem textbox_second_line :
    ∃ t d, ((sheetTextboxAlloc narrowSheet 0 narrowArea.xS narrowArea.yS narrowArea.xE narrowArea.yE
        0 0 7).sheet0 0).textbox = some t ∧
      (textboxMachine hankakuA).run ⟨t, []⟩ [.putfonts8Asc 7 [newlineChar, ⟨0x41, by decide⟩]] =
        some d ∧
      ((3, 29), 7) ∈ d.drawn ∧ ¬ narrowArea.Inside (3, 29) := by
  refine ⟨_, _, rfl, rfl, ?_, ?_⟩
  · refine mem_append_right _ (mem_map.mpr ⟨(3, 29), ?_, rfl⟩)
    exact mem_glyphPixels.mpr ⟨1, by decide, 3, by decide, by decide, rfl⟩
  · rintro ⟨-, -, hbottom⟩
    exact absurd hbottom (by decide)

end UnagiOs
