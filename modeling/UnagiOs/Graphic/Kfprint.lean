import UnagiOs.Graphic.Draw8
import UnagiOs.Theory.Machine

/-!
# Printing on the desktop (drivers/graphic/videomode.c)

`printf` ends in `videomode_kfprint`, which draws the characters of a string one after the other
onto the desktop's sheet. Where the next one goes is in `posX` and `posY`, which live as long as the
kernel does. A line ends at a newline or when the canvas is full to the right; nothing looks whether
it is full at the bottom.

`letters` says which characters are drawn where. `kfprint_iff`: printing is never stuck, which is to
say that no pixel outside of the canvas is written, iff the pixels of all of them are in the canvas;
with 16 columns or more, iff all rows that are not blank are.
-/

namespace UnagiOs

open List

/-! ## The model -/

/-- `hankaku + *s * 16`. A `char` is signed: from 128 on, the letter is looked for before the table,
in whatever is there. -/
def glyph (hankaku : Int → UInt8) (c : UInt8) : Nat → UInt8 :=
  fun i => hankaku (c.toInt8.toInt * 16 + i)

def newline : UInt8 := 10

/-- `padding_l` -/
def paddingL : Int := 8

/-- The canvas, with `posX` and `posY`. -/
structure Canvas where
  buf : Array UInt8
  posX : Int
  posY : Int

section Print

variable (hankaku : Int → UInt8) (xsize : Int)

/-- A round of the loop of `putfonts8_ascv2`. -/
def putChar (color : UInt8) (cv : Canvas) (c : UInt8) : Option Canvas :=
  if c = newline then some { cv with posX := paddingL, posY := cv.posY + 24 }
  else
    (putfont8 cv.buf xsize cv.posX cv.posY color (glyph hankaku c)).map fun buf =>
      if cv.posX + 8 > xsize - 16 then { buf, posX := paddingL, posY := cv.posY + 24 }
      else { buf, posX := cv.posX + 8, posY := cv.posY }

/-- `putfonts8_ascv2`, for the bytes before the NUL. -/
def putfonts8Ascv2 (buf : Array UInt8) (posXnew posYnew : Int) (color : UInt8)
    (s : List UInt8) : Option Canvas :=
  s.foldlM (putChar hankaku xsize color) ⟨buf, posXnew, posYnew⟩

/-- `videomode_kfprint`, without the copy to the screen. -/
def videomodeKfprint (cv : Canvas) (str : List UInt8) (color : UInt8) : Option Canvas :=
  putfonts8Ascv2 hankaku xsize cv.buf cv.posX cv.posY (if color = 0 then 7 else color) str

/-- Strings are printed, each in a colour. -/
def kfprintMachine : Machine Canvas (List UInt8 × UInt8) where
  step cv str := videomodeKfprint hankaku xsize cv str.1 str.2

end Print

/-! ## Where the characters go -/

section Letters

variable (xsize : Int)

/-- A character that is drawn. -/
structure Letter where
  c : UInt8
  x : Int
  y : Int
  deriving DecidableEq, Repr

/-- `posX` and `posY` after a character. -/
def advance (pos : Int × Int) (c : UInt8) : Int × Int :=
  if c = newline ∨ pos.1 + 8 > xsize - 16 then (paddingL, pos.2 + 24) else (pos.1 + 8, pos.2)

/-- What is drawn for a text. -/
def letters : Int × Int → List UInt8 → List Letter
  | _, [] => []
  | pos, c :: s =>
    (if c = newline then [] else [⟨c, pos.1, pos.2⟩]) ++ letters (advance xsize pos c) s

end Letters

/-- The pixels of all letters are in a canvas of `n` bytes. -/
def Fits (hankaku : Int → UInt8) (xsize : Int) (n : Nat) (ls : List Letter) : Prop :=
  ∀ l ∈ ls, ∀ p ∈ glyphPixels (glyph hankaku l.c) l.x l.y, InBuf n xsize p

/-! ## Printing -/

section Run

variable {hankaku : Int → UInt8} {xsize : Int} {n : Nat} {color : UInt8} {pos : Int × Int}
  {buf : Array UInt8} {ls ls' : List Letter} {out : Option Canvas}

theorem letters_append (xsize : Int) (pos : Int × Int) (s s' : List UInt8) :
    letters xsize pos (s ++ s') =
      letters xsize pos s ++ letters xsize (s.foldl (advance xsize) pos) s' := by
  induction s generalizing pos with
  | nil => rfl
  | cons c s ih => rw [cons_append, letters, ih, letters, append_assoc, foldl_cons]

theorem fits_append :
    Fits hankaku xsize n (ls ++ ls') ↔ Fits hankaku xsize n ls ∧ Fits hankaku xsize n ls' :=
  forall_mem_append

/-- A drawing comes back with the cursor at `pos` if the letters fit, and else it is stuck. -/
def Prints (hankaku : Int → UInt8) (xsize : Int) (n : Nat) (ls : List Letter) (pos : Int × Int)
    (out : Option Canvas) : Prop :=
  (Fits hankaku xsize n ls ∧ ∃ buf, out = some ⟨buf, pos.1, pos.2⟩ ∧ buf.size = n) ∨
    (¬ Fits hankaku xsize n ls ∧ out = none)

/-- One drawing after the other. -/
theorem Prints.bind {pos pos' : Int × Int} {next : Canvas → Option Canvas}
    (h : Prints hankaku xsize n ls pos out)
    (hnext : ∀ buf, buf.size = n → Prints hankaku xsize n ls' pos' (next ⟨buf, pos.1, pos.2⟩)) :
    Prints hankaku xsize n (ls ++ ls') pos' (out.bind next) := by
  rw [Prints, fits_append]
  rcases h with ⟨hfits, buf, rfl, hn⟩ | ⟨hover, rfl⟩
  · rw [and_iff_right hfits]
    exact hnext buf hn
  · exact .inr ⟨fun h => hover h.1, rfl⟩

/-- **One character.** -/
theorem prints_putChar (hn : buf.size = n) (pos : Int × Int) (c : UInt8) :
    Prints hankaku xsize n (if c = newline then [] else [⟨c, pos.1, pos.2⟩])
      (advance xsize pos c) (putChar hankaku xsize color ⟨buf, pos.1, pos.2⟩ c) := by
  rw [putChar, advance]
  by_cases hc : c = newline
  · rw [if_pos hc, if_pos hc, if_pos (.inl hc)]
    exact .inl ⟨fun l hl => absurd hl not_mem_nil, buf, rfl, hn⟩
  · rw [if_neg hc, if_neg hc, putfont8_eq, Prints, Fits, forall_mem_singleton]
    rcases foldlM_putPixel_cases (glyphPixels (glyph hankaku c) pos.1 pos.2) hn with
      ⟨hfits, buf', hdraw, hn'⟩ | ⟨hover, hstuck⟩
    · refine .inl ⟨hfits, buf', ?_, hn'⟩
      rw [hdraw, Option.map_some]
      by_cases hwrap : pos.1 + 8 > xsize - 16
      · rw [if_pos hwrap, if_pos (.inr hwrap)]
      · rw [if_neg hwrap, if_neg (not_or.mpr ⟨hc, hwrap⟩)]
    · refine .inr ⟨hover, ?_⟩
      rw [hstuck]
      rfl

/-- **One string.** -/
theorem prints_string (hn : buf.size = n) (pos : Int × Int) (s : List UInt8) :
    Prints hankaku xsize n (letters xsize pos s) (s.foldl (advance xsize) pos)
      (s.foldlM (putChar hankaku xsize color) ⟨buf, pos.1, pos.2⟩) := by
  induction s generalizing buf pos with
  | nil => exact .inl ⟨fun l hl => absurd hl not_mem_nil, buf, rfl, hn⟩
  | cons c s ih =>
    rw [letters, foldl_cons, foldlM_cons]
    exact (prints_putChar hn pos c).bind fun buf' hn' => ih hn' _

/-- **Any strings.** -/
theorem prints_run (hn : buf.size = n) (pos : Int × Int) (strs : List (List UInt8 × UInt8)) :
    Prints hankaku xsize n (letters xsize pos (strs.flatMap Prod.fst))
      ((strs.flatMap Prod.fst).foldl (advance xsize) pos)
      ((kfprintMachine hankaku xsize).run ⟨buf, pos.1, pos.2⟩ strs) := by
  induction strs generalizing buf pos with
  | nil => exact .inl ⟨fun l hl => absurd hl not_mem_nil, buf, rfl, hn⟩
  | cons str strs ih =>
    rw [flatMap_cons, letters_append, foldl_append]
    exact (prints_string hn pos str.1).bind fun buf' hn' => ih hn' _

theorem Prints.isSome_iff (h : Prints hankaku xsize n ls pos out) :
    (∃ cv, out = some cv) ↔ Fits hankaku xsize n ls := by
  rcases h with ⟨hfits, buf, rfl, -⟩ | ⟨hover, rfl⟩
  · exact iff_of_true ⟨_, rfl⟩ hfits
  · exact iff_of_false (by rintro ⟨cv, hcv⟩; cases hcv) hover

theorem Prints.stuck (h : Prints hankaku xsize n ls pos out) (hover : ¬ Fits hankaku xsize n ls) :
    out = none :=
  (h.resolve_left fun hprint => hover hprint.1).2

end Run

/-! ## On a canvas of whole rows -/

section Rows

variable {scrnx scrny : Int} {hankaku : Int → UInt8} {pos : Int × Int} {n : Nat}

/-- Where a character may be drawn: to the right of the padding, below the title, and with room for
its 8 columns. -/
def OnRow (scrnx : Int) (pos : Int × Int) : Prop := 8 ≤ pos.1 ∧ pos.1 + 8 ≤ scrnx ∧ 30 ≤ pos.2

theorem OnRow.advance (hx : 16 ≤ scrnx) (h : OnRow scrnx pos) (c : UInt8) :
    OnRow scrnx (advance scrnx pos c) := by
  obtain ⟨hleft, hright, htop⟩ := h
  rw [UnagiOs.advance]
  split
  case isTrue =>
    show 8 ≤ paddingL ∧ paddingL + 8 ≤ scrnx ∧ 30 ≤ pos.2 + 24
    rw [paddingL]
    omega
  case isFalse hwrap =>
    show 8 ≤ pos.1 + 8 ∧ pos.1 + 8 + 8 ≤ scrnx ∧ 30 ≤ pos.2
    omega

theorem OnRow.foldl (hx : 16 ≤ scrnx) (h : OnRow scrnx pos) (s : List UInt8) :
    OnRow scrnx (s.foldl (UnagiOs.advance scrnx) pos) := by
  induction s generalizing pos with
  | nil => exact h
  | cons c s ih => exact ih (h.advance hx c)

/-- All letters are between the left and the right edge. -/
theorem OnRow.letters (hx : 16 ≤ scrnx) (h : OnRow scrnx pos) {s : List UInt8} {l : Letter}
    (hl : l ∈ letters scrnx pos s) : OnRow scrnx (l.x, l.y) := by
  induction s generalizing pos with
  | nil => exact absurd hl not_mem_nil
  | cons c s ih =>
    rcases mem_append.mp hl with hhere | hlater
    · split at hhere
      case isTrue => exact absurd hhere not_mem_nil
      case isFalse =>
        rw [mem_singleton.mp hhere]
        exact h
    · exact ih (h.advance hx c) hlater

/-- Between the left and the right edge, what is in the buffer is what is not below the canvas. -/
theorem inBuf_iff (hn : (n : Int) = scrnx * scrny) {p : Int × Int} (hx : 0 ≤ p.1 ∧ p.1 < scrnx)
    (hy : 0 ≤ p.2) : InBuf n scrnx p ↔ p.2 < scrny := by
  have hrow : 0 ≤ p.2 * scrnx := mul_nonneg hy (hx.1.trans hx.2.le)
  rw [InBuf, hn]
  constructor
  · intro h
    -- in a row below the canvas the index is `scrnx * scrny` or more
    by_contra hbelow
    have hend : scrny * scrnx ≤ p.2 * scrnx :=
      mul_le_mul_of_nonneg_right (not_lt.mp hbelow) (hx.1.trans hx.2.le)
    have hcomm := mul_comm scrnx scrny
    omega
  · intro h
    have hnext : (p.2 + 1) * scrnx ≤ scrny * scrnx :=
      mul_le_mul_of_nonneg_right h (hx.1.trans hx.2.le)
    rw [add_mul, one_mul, mul_comm scrny] at hnext
    omega

/-- A letter is in the canvas iff its rows that are not blank are. -/
theorem glyphPixels_inBuf_iff (hn : (n : Int) = scrnx * scrny) {font : Nat → UInt8} {x y : Int}
    (h : OnRow scrnx (x, y)) :
    (∀ p ∈ glyphPixels font x y, InBuf n scrnx p) ↔ ∀ i < 16, font i ≠ 0 → y + i < scrny := by
  obtain ⟨hleft, hright, htop⟩ := h
  dsimp only at hleft hright htop
  have hpixel : ∀ i j : Nat, j < 8 → (InBuf n scrnx (x + j, y + i) ↔ y + i < scrny) := by
    intro i j hj
    exact inBuf_iff hn (by dsimp only; omega) (by dsimp only; omega)
  constructor
  · intro hall i hi hrow
    obtain ⟨j, hj, hbit⟩ := exists_rowBit hrow
    exact (hpixel i j hj).mp (hall _ (mem_glyphPixels.mpr ⟨i, hi, j, hj, hbit, rfl⟩))
  · intro hrows p hp
    obtain ⟨i, hi, j, hj, hbit, rfl⟩ := mem_glyphPixels.mp hp
    exact (hpixel i j hj).mpr (hrows i hi (ne_zero_of_rowBit hbit))

theorem fits_letters_iff (hn : (n : Int) = scrnx * scrny) (hx : 16 ≤ scrnx) (h : OnRow scrnx pos)
    (s : List UInt8) :
    Fits hankaku scrnx n (letters scrnx pos s) ↔
      ∀ l ∈ letters scrnx pos s, ∀ i < 16, glyph hankaku l.c i ≠ 0 → l.y + i < scrny :=
  forall₂_congr fun _ hl => glyphPixels_inBuf_iff hn (h.letters hx hl)

/-- `posX` and `posY` once `before` is printed. -/
def cursor (scrnx : Int) (before : List UInt8) : Int × Int :=
  before.foldl (advance scrnx) (paddingL, 30)

/-- **Printing** any strings on the desktop's canvas writes inside of it only iff all of the letters
fit; which they do, on a canvas with room for a letter beside the padding, iff none of their rows is
below the last one of the canvas, blank rows apart. -/
theorem kfprint_iff (hankaku : Int → UInt8) {scrnx scrny : Int} {buf : Array UInt8}
    (hbuf : (buf.size : Int) = scrnx * scrny) (before : List UInt8)
    (strs : List (List UInt8 × UInt8)) :
    let pos := cursor scrnx before
    let ls := letters scrnx pos (strs.flatMap Prod.fst)
    ((∃ cv, (kfprintMachine hankaku scrnx).run ⟨buf, pos.1, pos.2⟩ strs = some cv) ↔
        Fits hankaku scrnx buf.size ls) ∧
      (16 ≤ scrnx → (Fits hankaku scrnx buf.size ls ↔
        ∀ l ∈ ls, ∀ i < 16, glyph hankaku l.c i ≠ 0 → l.y + i < scrny)) := by
  intro pos ls
  constructor
  · exact (prints_run rfl pos strs).isSome_iff
  · intro hx
    have hstart : OnRow scrnx (paddingL, 30) := by
      show 8 ≤ (8 : Int) ∧ (8 : Int) + 8 ≤ scrnx ∧ 30 ≤ (30 : Int)
      omega
    exact fits_letters_iff hbuf hx (hstart.foldl hx before) _

/-- The letter A of `hankaku`. -/
def fontA : List UInt8 :=
  [0x00, 0x18, 0x18, 0x18, 0x18, 0x24, 0x24, 0x24,
    0x24, 0x7e, 0x42, 0x42, 0x42, 0xe7, 0x00, 0x00]

/-- `hankaku`, as far as the letter A is concerned. -/
def hankakuA (i : Int) : UInt8 := fontA.getD (i - 0x41 * 16).toNat 0

/-- The canvas of a screen of 320 x 200, in the colour of the desktop. -/
def screen : Array UInt8 := Array.replicate 64000 14

theorem size_screen : (screen.size : Int) = 320 * 200 := by
  rw [screen, Array.size_replicate]
  rfl

/-- An A on the first line. -/
theorem kfprint_first_line :
    ∃ cv, (kfprintMachine hankakuA 320).run ⟨screen, 8, 30⟩ [([0x41], 0)] = some cv := by
  have hprint := kfprint_iff hankakuA size_screen [] [([0x41], 0)]
  exact hprint.1.mpr ((hprint.2 (by decide)).mpr (by decide))

/-- An A after seven newlines: its third row is below the canvas. -/
theorem kfprint_eighth_line :
    (kfprintMachine hankakuA 320).run ⟨screen, 8, 30⟩
      [([10, 10, 10, 10, 10, 10, 10], 0), ([0x41], 0)] = none := by
  have hstart : OnRow 320 (8, 30) := ⟨by decide, by decide, by decide⟩
  refine (prints_run rfl (8, 30) _).stuck fun hfits => ?_
  have hrows := (fits_letters_iff size_screen (by decide) hstart _).mp hfits
  exact absurd hrows (by decide)

end Rows

end UnagiOs
