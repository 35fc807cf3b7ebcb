import UnagiOs.Graphic.SheetDraw

/-!
# Boxes, letters and title bars (drivers/graphic/videomode.c)

The functions that draw into a buffer of one byte per pixel, `xsize` pixels to
the row. A byte written outside the buffer is stuck (`none`). The table of the
font, `hankaku`, has 16 rows of 8 pixels for each character; its contents do
not matter here, so it is a parameter.

- `makeWtitle8_draws`: a title bar stays inside a buffer with 21 rows that are
  wide enough for the title and for the button.
- `putfont8_eq`: a letter is drawn by writing the pixels of its glyph, and
  `foldlM_putPixel_cases`: pixels can be written iff they are in the buffer.
-/

namespace UnagiOs

open List

/-- `COL8_C6C6C6`, light gray. -/
def col8_C6C6C6 : UInt8 := 8

/-- `COL8_000084`, dark cyan. -/
def col8_000084 : UInt8 := 12

/-- `COL8_848484`, dark gray. -/
def col8_848484 : UInt8 := 15

/-- `((uint8_t *) buf)[y * xsize + x] = color;` -/
def putPixel (xsize : Int) (color : UInt8) (buf : Array UInt8) (p : Int × Int) :
    Option (Array UInt8) :=
  let i := p.2 * xsize + p.1
  if 0 ≤ i ∧ i < buf.size then some (buf.setIfInBounds i.toNat color) else none

/-- `boxfill8`. -/
def boxfill8 (buf : Array UInt8) (xsize : Int) (color : UInt8) (x0 y0 x1 y1 : Int) :
    Option (Array UInt8) :=
  (Rect.mk x0 y0 x1 y1).pixels.foldlM (putPixel xsize color) buf

/-- `putfont8`. -/
def putfont8 (buf : Array UInt8) (xsize x y : Int) (color : UInt8) (font : Nat → UInt8) :
    Option (Array UInt8) :=
  (List.range 16).foldlM (fun buf i =>
    let row := font i
    -- `pt[0]` to `pt[7]`, from the high bit of the row down
    (List.range 8).foldlM (fun buf j =>
      if row &&& (0x80 >>> UInt8.ofNat j) ≠ 0 then putPixel xsize color buf (x + j, y + i)
      else some buf) buf) buf

/-- `putfonts8_asc`. -/
def putfonts8Asc (hankaku : Nat → UInt8) (buf : Array UInt8) (xsize x y : Int) (color : UInt8) :
    List Char → Option (Array UInt8)
  | [] => some buf
  | s :: rest =>
    -- a `char` is signed: above 127 the letter is looked for before the table
    if s.toNat < 128 then do
      let buf ← putfont8 buf xsize x y color fun i => hankaku (s.toNat * 16 + i)
      putfonts8Asc hankaku buf xsize (x + 8) y color rest
    else none

/-- `closebtn` of `make_wtitle8`. -/
def closebtn : List String :=
  ["OOOOOOOOOOOOOOO@",
   "OQQQQQQQQQQQQQ$@",
   "OQQQQQQQQQQQQQ$@",
   "OQQQ@@QQQQ@@QQ$@",
   "OQQQQ@@QQ@@QQQ$@",
   "OQQQQQ@@@@QQQQ$@",
   "OQQQQQQ@@QQQQQ$@",
   "OQQQQQ@@@@QQQQ$@",
   "OQQQQ@@QQ@@QQQ$@",
   "OQQQ@@QQQQ@@QQ$@",
   "OQQQQQQQQQQQQQ$@",
   "OQQQQQQQQQQQQQ$@",
   "O$$$$$$$$$$$$$$@",
   "@@@@@@@@@@@@@@@@"]

/-- The colour of a letter of `closebtn`. -/
def closebtnColor (c : Char) : UInt8 :=
  if c = '@' then 0
  else if c = '$' then col8_848484
  else if c = 'Q' then col8_C6C6C6
  else 7

/-- `make_wtitle8`, which does not look at `ysize`. -/
def makeWtitle8 (hankaku : Nat → UInt8) (buf : Array UInt8) (xsize : Int) (title : String)
    (isFocus : Bool) : Option (Array UInt8) := do
  let titleFontColor := if isFocus then 7 else col8_C6C6C6
  let titleBarColor := if isFocus then col8_000084 else col8_848484
  let buf ← boxfill8 buf xsize titleBarColor 3 3 (xsize - 4) 20
  let buf ← putfonts8Asc hankaku buf xsize 24 4 titleFontColor title.toList
  (List.range 14).foldlM (fun buf y =>
    (List.range 16).foldlM (fun buf x =>
      let c := ((closebtn.getD y "").toList).getD x 'O'
      putPixel xsize (closebtnColor c) buf (xsize - 21 + x, 5 + y)) buf) buf

/-! ## Where the bytes are written -/

/-- A drawing comes back, and the buffer keeps its size. -/
def Draws (n : Nat) (draw : Array UInt8 → Option (Array UInt8)) : Prop :=
  ∀ buf, buf.size = n → ∃ buf', draw buf = some buf' ∧ buf'.size = n

variable {n rows : Nat} {xsize x y : Int} {color : UInt8} {p : Int × Int}

namespace Draws

theorem skip : Draws n some := fun buf hn => ⟨buf, rfl, hn⟩

theorem bind {f g : Array UInt8 → Option (Array UInt8)} (hf : Draws n f) (hg : Draws n g) :
    Draws n fun buf => (f buf).bind g := by
  intro buf hn
  obtain ⟨buf₁, hbuf₁, hn₁⟩ := hf buf hn
  obtain ⟨buf₂, hbuf₂, hn₂⟩ := hg buf₁ hn₁
  exact ⟨buf₂, (congrArg (Option.bind · g) hbuf₁).trans hbuf₂, hn₂⟩

theorem loop {α : Type} {f : Array UInt8 → α → Option (Array UInt8)} {xs : List α}
    (hf : ∀ x ∈ xs, Draws n fun buf => f buf x) : Draws n fun buf => xs.foldlM f buf :=
  fun _ hn => foldlM_of_inv (fun buf hn x hx => hf x hx buf hn) hn

end Draws

/-- The buffer has `rows` rows of `xsize` pixels, at least. -/
def HasRows (n rows : Nat) (xsize : Int) : Prop := xsize * rows ≤ n

namespace HasRows

variable (hrows : HasRows n rows xsize)

include hrows

theorem putPixel (hx : 0 ≤ p.1 ∧ p.1 < xsize) (hy : 0 ≤ p.2 ∧ p.2 < rows) :
    Draws n fun buf => putPixel xsize color buf p := by
  intro buf hn
  obtain ⟨hlo, hhi⟩ := rowMajor_bounds hx.1 hx.2 hy.1 hy.2
  have hin : 0 ≤ p.2 * xsize + p.1 ∧ p.2 * xsize + p.1 < buf.size := by
    rw [Int.mul_comm, hn]
    exact ⟨hlo, Int.lt_of_lt_of_le hhi hrows⟩
  refine ⟨_, if_pos hin, ?_⟩
  rw [Array.size_setIfInBounds, hn]

theorem boxfill8 {x0 y0 x1 y1 : Int} (hx : 0 ≤ x0 ∧ x1 < xsize) (hy : 0 ≤ y0 ∧ y1 < rows) :
    Draws n fun buf => boxfill8 buf xsize color x0 y0 x1 y1 := by
  refine Draws.loop fun p hp => ?_
  obtain ⟨⟨hx0, hx1⟩, hy0, hy1⟩ := Rect.mem_pixels.mp hp
  exact hrows.putPixel ⟨Int.le_trans hx.1 hx0, Int.lt_of_le_of_lt hx1 hx.2⟩
    ⟨Int.le_trans hy.1 hy0, Int.lt_of_le_of_lt hy1 hy.2⟩

/-- A letter takes 8 columns and 16 rows. -/
theorem putfont8 {font : Nat → UInt8} (hx : 0 ≤ x ∧ x + 8 ≤ xsize) (hy : 0 ≤ y ∧ y + 16 ≤ rows) :
    Draws n fun buf => putfont8 buf xsize x y color font := by
  refine Draws.loop fun i hi => Draws.loop fun j hj => ?_
  rw [mem_range] at hi hj
  by_cases hbit : font i &&& (0x80 >>> UInt8.ofNat j) ≠ 0
  · simp only [if_pos hbit]
    exact hrows.putPixel ⟨by omega, by omega⟩ ⟨by omega, by omega⟩
  · simp only [if_neg hbit]
    exact Draws.skip

theorem putfonts8Asc {hankaku : Nat → UInt8} {s : List Char} (hascii : ∀ c ∈ s, c.toNat < 128)
    (hx : 0 ≤ x ∧ x + 8 * s.length ≤ xsize) (hy : 0 ≤ y ∧ y + 16 ≤ rows) :
    Draws n fun buf => putfonts8Asc hankaku buf xsize x y color s := by
  induction s generalizing x with
  | nil => exact Draws.skip
  | cons c s ih =>
    rw [length_cons] at hx
    simp only [UnagiOs.putfonts8Asc, if_pos (hascii c mem_cons_self)]
    exact (hrows.putfont8 ⟨hx.1, by omega⟩ hy).bind
      (ih (fun d hd => hascii d (mem_cons_of_mem c hd)) ⟨by omega, by omega⟩)

/-- The button takes 16 columns and 14 rows. -/
theorem closebtn (f : Nat → Nat → UInt8) (hx : 0 ≤ x ∧ x + 16 ≤ xsize)
    (hy : 0 ≤ y ∧ y + 14 ≤ rows) :
    Draws n fun buf => (List.range 14).foldlM (fun buf (j : Nat) =>
      (List.range 16).foldlM (fun buf (i : Nat) =>
        UnagiOs.putPixel xsize (f j i) buf (x + i, y + j)) buf) buf := by
  refine Draws.loop fun j hj => Draws.loop fun i hi => ?_
  rw [mem_range] at hi hj
  exact hrows.putPixel ⟨by omega, by omega⟩ ⟨by omega, by omega⟩

end HasRows

/-! ## The pixels of a letter -/

/-- Column `j` of a row is set. -/
def rowBit (row : UInt8) (j : Nat) : Bool := decide (row &&& (0x80 >>> UInt8.ofNat j) ≠ 0)

/-- The pixels of a letter at `x`, `y`. -/
def glyphPixels (font : Nat → UInt8) (x y : Int) : List (Int × Int) :=
  (List.range 16).flatMap fun i =>
    ((List.range 8).filter (rowBit (font i))).map fun (j : Nat) => (x + j, y + i)

theorem mem_glyphPixels {font : Nat → UInt8} : p ∈ glyphPixels font x y ↔
    ∃ i < 16, ∃ j < 8, rowBit (font i) j = true ∧ p = (x + j, y + i) := by
  simp only [glyphPixels, mem_flatMap, mem_map, mem_filter, mem_range]
  constructor
  · rintro ⟨i, hi, j, ⟨hj, hbit⟩, rfl⟩
    exact ⟨i, hi, j, hj, hbit, rfl⟩
  · rintro ⟨i, hi, j, hj, hbit, rfl⟩
    exact ⟨i, hi, j, ⟨hj, hbit⟩, rfl⟩

/-- Drawing a letter writes the pixels of its glyph. -/
theorem putfont8_eq (buf : Array UInt8) (xsize x y : Int) (color : UInt8) (font : Nat → UInt8) :
    putfont8 buf xsize x y color font =
      (glyphPixels font x y).foldlM (putPixel xsize color) buf := by
  rw [glyphPixels, foldlM_flatMap, putfont8]
  refine foldlM_congr (fun buf i _ => ?_) buf
  have hskip : ∀ buf, ∀ j ∈ List.range 8, rowBit (font i) j = false →
      (if font i &&& (0x80 >>> UInt8.ofNat j) ≠ 0 then putPixel xsize color buf (x + j, y + i)
        else some buf) = some buf :=
    fun buf j _ hbit => if_neg (of_decide_eq_false hbit)
  rw [foldlM_map]
  refine (foldlM_filter hskip buf).symm.trans (foldlM_congr (fun buf j hj => ?_) buf)
  exact if_pos (of_decide_eq_true (mem_filter.mp hj).2)

theorem ne_zero_of_rowBit {row : UInt8} {j : Nat} (h : rowBit row j = true) : row ≠ 0 := by
  rintro rfl
  rw [rowBit, UInt8.zero_and] at h
  exact absurd h (by decide)

/-- A row that is not blank has a column set. -/
theorem exists_rowBit {row : UInt8} (h : row ≠ 0) : ∃ j < 8, rowBit row j = true := by
  have hbits : ∀ v : BitVec 8, v ≠ 0 → ∃ j < 8, rowBit ⟨v⟩ j = true := by decide
  exact hbits row.toBitVec fun h0 => h (UInt8.toBitVec_inj.mp h0)

/-- The pixel is in a buffer of `n` bytes. -/
def InBuf (n : Nat) (xsize : Int) (p : Int × Int) : Prop :=
  0 ≤ p.2 * xsize + p.1 ∧ p.2 * xsize + p.1 < n

/-- Pixels are written if all of them are in the buffer, and else the drawing is stuck. -/
theorem foldlM_putPixel_cases (ps : List (Int × Int)) {buf : Array UInt8} (hn : buf.size = n) :
    ((∀ p ∈ ps, InBuf n xsize p) ∧
        ∃ buf', ps.foldlM (putPixel xsize color) buf = some buf' ∧ buf'.size = n) ∨
      (¬ ∀ p ∈ ps, InBuf n xsize p) ∧ ps.foldlM (putPixel xsize color) buf = none := by
  induction ps generalizing buf with
  | nil => exact .inl ⟨fun p hp => absurd hp not_mem_nil, buf, rfl, hn⟩
  | cons p ps ih =>
    rw [foldlM_cons, forall_mem_cons]
    by_cases hp : InBuf n xsize p
    · have hput : putPixel xsize color buf p =
          some (buf.setIfInBounds (p.2 * xsize + p.1).toNat color) := if_pos (hn ▸ hp)
      rw [hput, and_iff_right hp]
      exact ih (by rw [Array.size_setIfInBounds, hn])
    · have hstuck : putPixel xsize color buf p = none := if_neg (hn ▸ hp)
      rw [hstuck]
      exact .inr ⟨fun h => hp h.1, rfl⟩

/-- **A title bar** stays in a buffer of 21 rows that are wide enough for the
title and the button. -/
theorem makeWtitle8_draws (hankaku : Nat → UInt8) {title : String} (isFocus : Bool)
    (hrows : HasRows n 21 xsize) (hascii : ∀ c ∈ title.toList, c.toNat < 128)
    (hwidth : 24 + 8 * (title.toList.length : Int) ≤ xsize) :
    Draws n fun buf => makeWtitle8 hankaku buf xsize title isFocus :=
  (hrows.boxfill8 ⟨by decide, by omega⟩ ⟨by decide, by decide⟩).bind
    ((hrows.putfonts8Asc hascii ⟨by decide, hwidth⟩ ⟨by decide, by decide⟩).bind
      (hrows.closebtn _ ⟨by omega, by omega⟩ ⟨by decide, by decide⟩))

end UnagiOs
