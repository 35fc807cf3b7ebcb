import Mathlib.Data.List.GetD
import UnagiOs.Graphic.PixelWriter
import UnagiOs.Graphic.SheetDraw
import UnagiOs.Theory.Machine
import UnagiOs.Theory.Scrollback
import UnagiOs.Util.Kutil

/-!
# The text console (console.cpp, font.cpp)

`Console` keeps the characters that are on the screen in `buffer_`, since scrolling has to draw them
again. A character is put at the cursor, in the buffer and on the screen; a newline in the last row
clears the screen, moves all rows up by one and draws each of them up to its NUL.

What the console is for is `window`: to show the last lines of all that was printed. `console_run`:
after any strings the buffer holds them and the characters on the screen are those of the buffer.

A row that is drawn again ends at its NUL, so there has to be one. To read or to write behind the
end of a row is stuck, and so is a character that is not ASCII, for which there is no letter.
-/

namespace UnagiOs

open List

/-! ## Letters (font.cpp) -/

/-- `SYS_MAX_ITER` -/
def sysMaxIter : Nat := 65535

/-- A character, drawn at a pixel. -/
structure Ascii where
  x : Int
  y : Int
  c : UInt8
  deriving DecidableEq, Repr

/-- What a `PixelWriter` has written, and which characters since the screen was cleared. -/
structure Screen where
  pixel : Int × Int → PixelColor
  drawn : List Ascii

/-- Calls of `writer.Write` with one colour. -/
def writePixels (color : PixelColor) (ps : List (Int × Int)) (pixel : Int × Int → PixelColor) :
    Int × Int → PixelColor :=
  ps.foldl (fun pixel p => Function.update pixel p color) pixel

section Font

variable (hankaku : Nat → UInt8)

/-- `GetFont`. A `char` from 128 on is negative, and a large number as `unsigned int`. -/
def getFont (c : UInt8) : Option (Nat → UInt8) :=
  let offset := (16 * c.toInt8.toInt32.toUInt32).toNat
  if offset ≥ 4096 then none else some fun i => hankaku (offset + i)

/-- The pixels of a letter, in the order of the two nested loops. -/
def asciiPixels (font : Nat → UInt8) (x y : Int) : List (Int × Int) :=
  (List.range 16).flatMap fun dy =>
    ((List.range 8).filter fun dx => (font dy).toNat <<< dx &&& 0x80 ≠ 0).map
      fun (dx : Nat) => (x + dx, y + dy)

/-- `WriteAscii` -/
def writeAscii (scr : Screen) (x y : Int) (c : UInt8) (color : PixelColor) : Option Screen :=
  (getFont hankaku c).map fun font =>
    { pixel := writePixels color (asciiPixels font x y) scr.pixel
      drawn := scr.drawn ++ [⟨x, y, c⟩] }

/-- The loop of `WriteString` from `s[i]` on, for `n` rounds at most. The string is in an array of
`size` bytes. -/
def writeFrom (size : Nat) (s : Nat → UInt8) (x y : Int) (color : PixelColor) :
    Nat → Nat → Screen → Option Screen
  | 0, _, scr => some scr
  | n + 1, i, scr =>
    if size ≤ i then none
    else if s i = 0 then some scr
    else (writeAscii hankaku scr (x + 8 * i) y (s i) color).bind
      (writeFrom size s x y color n (i + 1))

/-- `WriteString` -/
def writeString (size : Nat) (scr : Screen) (x y : Int) (s : Nat → UInt8) (color : PixelColor) :
    Option Screen :=
  writeFrom hankaku size s x y color (sysMaxIter - 1) 0 scr

end Font

/-! ## The console (console.cpp) -/

def kRows : Nat := 55

def kColumns : Nat := 80

def lineFeed : UInt8 := 10

structure Console where
  screen : Screen
  fgColor : PixelColor
  bgColor : PixelColor
  buffer : Nat → Nat → UInt8
  cursorRow : Nat
  cursorColumn : Nat

/-- The pixels that `Newline` clears. -/
@[irreducible] def clearedArea : Rect := ⟨0, 0, 8 * kColumns - 1, 16 * kRows - 1⟩

namespace Console

/-- The constructor. -/
def new (pixel : Int × Int → PixelColor) (fgColor bgColor : PixelColor) : Console where
  screen := ⟨pixel, []⟩
  fgColor := fgColor
  bgColor := bgColor
  buffer := fun _ _ => 0
  cursorRow := 0
  cursorColumn := 0

/-- "Clear the screen" -/
def clear (con : Console) : Console :=
  { con with
    screen := ⟨writePixels con.bgColor clearedArea.pixels con.screen.pixel, []⟩ }

section Step

variable (hankaku : Nat → UInt8)

/-- "Rewrite one row": it becomes what the next one is. -/
def rewriteRow (con : Console) (row : Nat) : Option Console :=
  let line := fillSlots (con.buffer row) 0 (con.buffer (row + 1)) (kColumns + 1)
  (writeString hankaku (kColumns + 1) con.screen 0 (16 * row) line con.fgColor).map fun screen =>
    { con with screen, buffer := setSlot con.buffer row line }

/-- All rows are rewritten, and the last one is cleared. -/
def scroll (con : Console) : Option Console :=
  ((List.range (kRows - 1)).foldlM (rewriteRow hankaku) con.clear).map fun con =>
    let line := fillSlots (con.buffer (kRows - 1)) 0 (fun _ => 0) (kColumns + 1)
    { con with buffer := setSlot con.buffer (kRows - 1) line }

/-- `Console::Newline` -/
def newline (con : Console) : Option Console :=
  let con := { con with cursorColumn := 0 }
  if con.cursorRow < kRows - 1 then some { con with cursorRow := con.cursorRow + 1 }
  else con.scroll hankaku

/-- A round of the loop of `Console::PutString`. -/
def putChar (con : Console) (c : UInt8) : Option Console :=
  if c = lineFeed then con.newline hankaku
  else if con.cursorColumn < kColumns - 1 then
    (writeAscii hankaku con.screen (8 * con.cursorColumn) (16 * con.cursorRow) c con.fgColor).bind
      fun screen =>
        if con.cursorRow < kRows then
          let line := setSlot (con.buffer con.cursorRow) con.cursorColumn c
          some { con with
            screen
            buffer := setSlot con.buffer con.cursorRow line
            cursorColumn := con.cursorColumn + 1 }
        else none
  else some con

/-- The loop of `Console::PutString`, after `i` rounds. -/
def putFrom : Nat → List UInt8 → Console → Option Console
  | _, [], con => some con
  | i, c :: s, con =>
    if i + 1 < sysMaxIter then (con.putChar hankaku c).bind (putFrom (i + 1) s) else some con

/-- `Console::PutString`, for the bytes before the NUL. -/
def putString (con : Console) (s : List UInt8) : Option Console := putFrom hankaku 0 s con

end Step

end Console

/-- A byte of an ASCII string. -/
def IsAscii (c : UInt8) : Prop := c ≠ 0 ∧ c < 128

/-- An ASCII string that `PutString` prints to its end. -/
abbrev AsciiString := { s : List UInt8 // s.length < sysMaxIter ∧ ∀ c ∈ s, IsAscii c }

/-- Strings are printed. -/
def consoleMachine (hankaku : Nat → UInt8) : Machine Console AsciiString where
  step con s := con.putString hankaku s

/-! ## What is on the screen -/

/-- The characters of a buffer, at their cells. -/
def bufferCells (buffer : Nat → Nat → UInt8) : List Ascii :=
  (List.range kRows).flatMap fun row =>
    ((List.range (kColumns + 1)).filter fun column => buffer row column ≠ 0).map
      fun (column : Nat) => ⟨8 * column, 16 * row, buffer row column⟩

def rowCells (row : Nat) (line : List UInt8) : List Ascii :=
  line.mapIdx fun column c => ⟨8 * column, 16 * row, c⟩

/-- The characters of some lines, at their cells. -/
def cells (lines : List (List UInt8)) : List Ascii := (lines.mapIdx rowCells).flatten

/-- The pixels of a character. -/
def Ascii.pixels (hankaku : Nat → UInt8) (a : Ascii) : List (Int × Int) :=
  match getFont hankaku a.c with
  | none => []
  | some font => asciiPixels font a.x a.y

/-- Draw characters that have a letter. -/
def Screen.draw (hankaku : Nat → UInt8) (color : PixelColor) (scr : Screen) (as : List Ascii) :
    Screen where
  pixel := writePixels color (as.flatMap (Ascii.pixels hankaku)) scr.pixel
  drawn := scr.drawn ++ as

section Draw

variable {hankaku : Nat → UInt8} {color : PixelColor} {scr : Screen} {c : UInt8}

theorem writePixels_append (ps qs : List (Int × Int)) (pixel : Int × Int → PixelColor) :
    writePixels color (ps ++ qs) pixel = writePixels color qs (writePixels color ps pixel) :=
  foldl_append

/-- The pixels that were written have the colour, the others stay. -/
theorem writePixels_apply (ps : List (Int × Int)) (pixel : Int × Int → PixelColor) (p : Int × Int) :
    writePixels color ps pixel p = if p ∈ ps then color else pixel p := by
  induction ps using List.reverseRecOn with
  | nil => rfl
  | append_singleton ps q ih =>
    rw [writePixels_append]
    show Function.update (writePixels color ps pixel) q color p = _
    by_cases hq : p = q
    · rw [hq, Function.update_self, if_pos (by simp)]
    · rw [Function.update_of_ne hq, ih]
      simp [hq]

theorem draw_nil : scr.draw hankaku color [] = scr := by
  rw [Screen.draw, append_nil]
  rfl

theorem draw_append (as bs : List Ascii) :
    scr.draw hankaku color (as ++ bs) = (scr.draw hankaku color as).draw hankaku color bs := by
  rw [Screen.draw, Screen.draw, Screen.draw, flatMap_append, writePixels_append,
    append_assoc]

/-- ASCII characters have a letter in the table, of 16 bytes each. -/
theorem getFont_eq (hc : c < 128) :
    getFont hankaku c = some fun i => hankaku (16 * c.toNat + i) := by
  have hoffset : ∀ c : BitVec 8, c < 128 →
      (16 * (UInt8.ofBitVec c).toInt8.toInt32.toUInt32).toNat = 16 * c.toNat := by decide
  have heq : (16 * c.toInt8.toInt32.toUInt32).toNat = 16 * c.toNat := hoffset c.toBitVec hc
  have hlt : c.toNat < 128 := hc
  rw [getFont, heq]
  exact if_neg (by omega)

theorem writeAscii_eq (hc : c < 128) (x y : Int) :
    writeAscii hankaku scr x y c color = some (scr.draw hankaku color [⟨x, y, c⟩]) := by
  have hfont : getFont hankaku c = some fun i => hankaku (16 * c.toNat + i) := getFont_eq hc
  have hpixels : [Ascii.mk x y c].flatMap (Ascii.pixels hankaku) =
      asciiPixels (fun i => hankaku (16 * c.toNat + i)) x y := by
    rw [flatMap_singleton, Ascii.pixels, hfont]
  rw [writeAscii, hfont, Option.map_some, Screen.draw, hpixels]

/-- The pixels that a letter paints: row `dy` of the letter is a byte of the table, whose leftmost
pixel is its highest bit. -/
theorem Ascii.mem_pixels {a : Ascii} (ha : a.c < 128) {p : Int × Int} :
    p ∈ a.pixels hankaku ↔ ∃ dx < 8, ∃ dy < 16,
      (hankaku (16 * a.c.toNat + dy)).toNat <<< dx &&& 0x80 ≠ 0 ∧
        p = (a.x + (dx : Nat), a.y + (dy : Nat)) := by
  rw [Ascii.pixels, getFont_eq ha]
  simp only [asciiPixels, mem_flatMap, mem_map, mem_filter, mem_range,
    decide_eq_true_eq]
  constructor
  · rintro ⟨dy, hdy, dx, ⟨hdx, hbit⟩, rfl⟩
    exact ⟨dx, hdx, dy, hdy, hbit, rfl⟩
  · rintro ⟨dx, hdx, dy, hdy, hbit, rfl⟩
    exact ⟨dy, hdy, dx, ⟨hdx, hbit⟩, rfl⟩

end Draw

theorem rowCells_concat (row : Nat) (line : List UInt8) (c : UInt8) :
    rowCells row (line ++ [c]) = rowCells row line ++ [⟨8 * line.length, 16 * row, c⟩] :=
  mapIdx_concat

theorem cells_concat (lines : List (List UInt8)) (line : List UInt8) :
    cells (lines ++ [line]) = cells lines ++ rowCells lines.length line := by
  rw [cells, mapIdx_concat, flatten_append, flatten_singleton, cells]

/-- A line that fits in a row, with NULs behind it. -/
def FitsRow (line : List UInt8) : Prop := line.length ≤ kColumns - 1 ∧ ∀ c ∈ line, IsAscii c

section Rows

variable {hankaku : Nat → UInt8} {color : PixelColor} {line : List UInt8} {row : Nat} {i : Nat}

/-- The first NUL of a row is the end of its line. -/
theorem FitsRow.cstr_ne_zero_iff (h : FitsRow line) : cstr line i ≠ 0 ↔ i < line.length := by
  constructor
  · intro hne
    by_contra hend
    exact hne (by simp [cstr, getElem?_eq_none (Nat.not_lt.mp hend)])
  · intro hi
    have hc := (h.2 _ (getElem_mem hi)).1
    simpa [cstr, hi] using hc

theorem FitsRow.cstr_lt (h : FitsRow line) (i : Nat) : cstr line i < 128 := by
  by_cases hi : i < line.length
  · simpa [cstr, hi] using (h.2 _ (getElem_mem hi)).2
  · have hnul : cstr line i = 0 := by
      by_contra hne
      exact hi (h.cstr_ne_zero_iff.mp hne)
    rw [hnul]
    decide

/-- A row is drawn to the end of its line. -/
theorem writeFrom_eq (h : FitsRow line) {n : Nat} (hi : i ≤ line.length) (hn : line.length ≤ i + n)
    (scr : Screen) :
    writeFrom hankaku (kColumns + 1) (cstr line) 0 (16 * row) color n i scr =
      some (scr.draw hankaku color ((rowCells row line).drop i)) := by
  have hlen : (rowCells row line).length = line.length := length_mapIdx
  -- by the rounds that are left: a letter is drawn, or the NUL is met
  induction n generalizing i scr with
  | zero =>
    rw [writeFrom, drop_of_length_le (by omega), draw_nil]
  | succ n ih =>
    have hwide : line.length ≤ 79 := h.1
    have hinside : ¬ kColumns + 1 ≤ i := by
      rw [kColumns]
      omega
    rw [writeFrom, if_neg hinside]
    by_cases hend : i = line.length
    · have hnul : cstr line i = 0 := by
        by_contra hne
        exact absurd (h.cstr_ne_zero_iff.mp hne) (by omega)
      rw [if_pos hnul, drop_of_length_le (by omega), draw_nil]
    · have hlt : i < line.length := by omega
      have hc : cstr line i = (line)[i] := by simp [cstr, hlt]
      have hcells : i < (rowCells row line).length := by omega
      have hcell : (rowCells row line)[i] = ⟨0 + 8 * i, 16 * row, (line)[i]⟩ := by
        rw [zero_add]
        exact getElem_mapIdx
      rw [if_neg (h.cstr_ne_zero_iff.mpr hlt), hc, writeAscii_eq (h.2 _ (getElem_mem hlt)).2,
        Option.bind_some, ih (by omega) (by omega), ← draw_append,
        drop_eq_getElem_cons hcells, hcell]
      rfl

theorem writeString_eq (h : FitsRow line) (scr : Screen) :
    writeString hankaku (kColumns + 1) scr 0 (16 * row) (cstr line) color =
      some (scr.draw hankaku color (rowCells row line)) := by
  have hwide : line.length ≤ 79 := h.1
  exact writeFrom_eq h (Nat.zero_le _) (by rw [sysMaxIter]; omega) scr

end Rows

/-! ## The cursor, the buffer and the screen -/

/-- The buffer holds the lines, and empty rows behind them. -/
structure HoldsLines (buffer : Nat → Nat → UInt8) (lines : List (List UInt8)) : Prop where
  length_le : lines.length ≤ kRows
  fits : ∀ line ∈ lines, FitsRow line
  buffer : ∀ row < kRows, buffer row = cstr (lines.getD row [])

/-- The console shows the lines. The screen was cleared, or never drawn on, before they were
drawn. -/
structure Shows (hankaku : Nat → UInt8) (start : Console) (con : Console)
    (lines : List (List UInt8)) : Prop extends HoldsLines con.buffer lines where
  cursorRow : con.cursorRow + 1 = lines.length
  cursorColumn : con.cursorColumn = (lines.getLastD []).length
  colors : con.fgColor = start.fgColor ∧ con.bgColor = start.bgColor
  screen : ∃ base : Screen, base.drawn = [] ∧
    (∀ p ∈ clearedArea.pixels, start.screen.pixel p = start.bgColor →
      base.pixel p = start.bgColor) ∧
    con.screen = base.draw hankaku start.fgColor (cells lines)

section Step

variable {hankaku : Nat → UInt8} {start con : Console} {lines : List (List UInt8)}
  {line old : List UInt8} {c : UInt8} {buffer : Nat → Nat → UInt8} {text : List UInt8}

theorem fitsRow_nil : FitsRow [] := ⟨Nat.zero_le _, fun _ hc => absurd hc not_mem_nil⟩

theorem HoldsLines.fitsRow (h : HoldsLines buffer lines) (row : Nat) :
    FitsRow (lines.getD row []) := by
  rw [getD_eq_getElem?_getD]
  cases hrow : lines[row]? with
  | none => exact fitsRow_nil
  | some line => exact h.fits line (mem_of_getElem? hrow)

/-- An empty line is added. -/
theorem fits_concat_nil (h : ∀ line ∈ lines, FitsRow line) : ∀ line ∈ lines ++ [[]], FitsRow line :=
  forall_mem_append.mpr ⟨h, forall_mem_singleton.mpr fitsRow_nil⟩

theorem getD_concat (lines : List (List UInt8)) (line : List UInt8) (row : Nat) :
    (lines ++ [line]).getD row [] = if row = lines.length then line else lines.getD row [] := by
  rcases Nat.lt_trichotomy row lines.length with hlt | heq | hgt
  · rw [if_neg hlt.ne, getD_append _ _ _ _ hlt]
  · simp [heq]
  · rw [if_neg hgt.ne', getD_eq_default _ _ (by simp; omega),
      getD_eq_default _ _ hgt.le]

/-- `memcpy` and `memset` of a whole row. -/
theorem fillSlots_row (hold : FitsRow old) (hline : FitsRow line) :
    fillSlots (cstr old) 0 (cstr line) (kColumns + 1) = cstr line := by
  have hend : ∀ {s : List UInt8}, FitsRow s → ∀ j, kColumns + 1 ≤ j → cstr s j = 0 := by
    intro s hs j hj
    by_contra hne
    have hlt := hs.cstr_ne_zero_iff.mp hne
    have hwide := hs.1
    omega
  funext j
  rw [fillSlots_apply]
  by_cases hj : j < kColumns + 1
  · rw [if_pos ⟨Nat.zero_le j, by omega⟩, Nat.sub_zero]
  · rw [if_neg (by omega), hend hold j (by omega), hend hline j (by omega)]

theorem FitsRow.concat (h : FitsRow line) (hroom : line.length < kColumns - 1)
    (hascii : IsAscii c) : FitsRow (line ++ [c]) := by
  refine ⟨?_, forall_mem_append.mpr ⟨h.2, forall_mem_singleton.mpr hascii⟩⟩
  rw [length_append]
  exact hroom

/-- **A character** in the last line. -/
theorem Shows.putChar (h : Shows hankaku start con (lines ++ [line])) (hc : c ≠ lineFeed)
    (hascii : IsAscii c) :
    ∃ con', con.putChar hankaku c = some con' ∧
      Shows hankaku start con'
        (lines ++ [if line.length < kColumns - 1 then line ++ [c] else line]) := by
  have hrow : con.cursorRow = lines.length := by simpa using h.cursorRow
  have hcolumn : con.cursorColumn = line.length := by
    rw [h.cursorColumn, getLastD_concat]
  have hlength : lines.length + 1 ≤ kRows := by simpa using h.length_le
  obtain ⟨base, hbase, hclear, hscreen⟩ := h.screen
  have hline : FitsRow line := h.fits line (by simp)
  rw [Console.putChar, if_neg hc, hcolumn]
  by_cases hroom : line.length < kColumns - 1
  · rw [if_pos hroom, if_pos hroom, writeAscii_eq hascii.2, Option.bind_some,
      if_pos (by omega)]
    refine ⟨_, rfl, ⟨?_, ?_, ?_⟩, ?_, ?_, h.colors, base, hbase, hclear, ?_⟩
    · simpa using hlength
    · refine forall_mem_append.mpr ⟨fun l hl => h.fits l (mem_append_left _ hl), ?_⟩
      exact forall_mem_singleton.mpr (hline.concat hroom hascii)
    · intro row hlt
      have hbuf := h.buffer row hlt
      dsimp only
      rw [getD_concat] at hbuf ⊢
      rw [setSlot, hrow]
      split
      case isTrue heq =>
        rw [if_pos heq] at hbuf
        rw [← heq, hbuf, setSlot_cstr]
      case isFalse hne =>
        rw [hbuf, if_neg hne]
    · simpa using hrow
    · dsimp only
      rw [getLastD_concat, length_append, length_singleton]
    · dsimp only
      rw [hscreen, h.colors.1, hrow, cells_concat, cells_concat, rowCells_concat,
        ← append_assoc, draw_append, draw_append, draw_append]
  · rw [if_neg hroom, if_neg hroom]
    exact ⟨con, rfl, h⟩

/-- **A newline** above the last row. -/
theorem Shows.newline_room (h : Shows hankaku start con lines) (hroom : lines.length < kRows) :
    ∃ con', con.newline hankaku = some con' ∧ Shows hankaku start con' (lines ++ [[]]) := by
  have hrow := h.cursorRow
  rw [Console.newline, if_pos (by dsimp only; omega)]
  refine ⟨_, rfl, ⟨?_, fits_concat_nil h.fits, ?_⟩, ?_, ?_, h.colors, ?_⟩
  · rw [length_append]
    exact hroom
  · intro row hlt
    rw [getD_concat]
    split
    case isTrue heq => rw [h.buffer row hlt, heq, getD_eq_default _ _ le_rfl]
    case isFalse => exact h.buffer row hlt
  · rw [length_append, ← hrow]
    rfl
  · rw [getLastD_concat]
    rfl
  · obtain ⟨base, hbase, hclear, hscreen⟩ := h.screen
    refine ⟨base, hbase, hclear, ?_⟩
    rw [cells_concat, rowCells, mapIdx_nil, append_nil]
    exact hscreen

/-- A row is overwritten with the next one and drawn. -/
theorem rewriteRow_eq {row : Nat} (hold : FitsRow old) (hbuf : con.buffer row = cstr old)
    (hline : FitsRow line) (hnext : con.buffer (row + 1) = cstr line) :
    con.rewriteRow hankaku row =
      some { con with
        screen := con.screen.draw hankaku con.fgColor (rowCells row line)
        buffer := setSlot con.buffer row (con.buffer (row + 1)) } := by
  rw [Console.rewriteRow, hbuf, hnext, fillSlots_row hold hline, writeString_eq hline,
    Option.map_some]

/-- **The rows move up** and are drawn from the top down. -/
theorem rewriteRows_eq (h : HoldsLines con.buffer lines) (hfull : lines.length = kRows) (k : Nat)
    (hk : k ≤ kRows - 1) :
    (List.range k).foldlM (Console.rewriteRow hankaku) con =
      some { con with
        screen := con.screen.draw hankaku con.fgColor (cells (lines.tail.take k))
        buffer := shiftDown con.buffer 0 k } := by
  induction k with
  | zero =>
    rw [take_zero, cells, mapIdx_nil, flatten_nil, draw_nil]
    rfl
  | succ k ih =>
    have hlt : k < lines.tail.length := by
      rw [length_tail]
      omega
    have hline : lines.getD (k + 1) [] = lines.tail[k] := by
      rw [getElem_tail, getD_eq_getElem _ _ (by omega)]
    have hcells : cells (lines.tail.take (k + 1)) =
        cells (lines.tail.take k) ++ rowCells k (lines.getD (k + 1) []) := by
      rw [take_succ_eq_append_getElem hlt, cells_concat, length_take_of_le hlt.le, hline]
    -- the rows from `k` on are as they were
    have hsame : ∀ row, k ≤ row → shiftDown con.buffer 0 k row = con.buffer row := by
      intro row hrow
      rw [shiftDown_apply, if_neg (by omega)]
    rw [range_succ, foldlM_append, ih (by omega)]
    refine (Option.bind_some _ _).trans ?_
    rw [foldlM_cons, rewriteRow_eq (h.fitsRow k)
      ((hsame k le_rfl).trans (h.buffer k (by omega))) (h.fitsRow (k + 1))
      ((hsame (k + 1) (Nat.le_succ k)).trans (h.buffer (k + 1) (by omega))), hcells, draw_append,
      shiftDown, Nat.zero_add]
    rfl

/-- **Scrolling**: the first row goes and the last one is empty. -/
theorem scroll_eq (h : HoldsLines con.buffer lines) (hfull : lines.length = kRows) :
    con.scroll hankaku = some { con with
      screen := con.clear.screen.draw hankaku con.fgColor (cells lines.tail)
      buffer := setSlot (shiftDown con.buffer 0 (kRows - 1)) (kRows - 1) (cstr []) } := by
  -- a console is taken apart first: the cleared screen is too large to compare with another one
  obtain ⟨screen, fgColor, bgColor, buffer, cursorRow, cursorColumn⟩ := con
  have hrows := @rewriteRows_eq hankaku
    (Console.clear ⟨screen, fgColor, bgColor, buffer, cursorRow, cursorColumn⟩) lines h hfull _
    le_rfl
  have htail : lines.tail.length ≤ kRows - 1 := by rw [length_tail, hfull]
  have hlast : shiftDown buffer 0 (kRows - 1) (kRows - 1) = cstr (lines.getD (kRows - 1) []) := by
    rw [shiftDown_apply, if_neg (by omega)]
    exact h.buffer _ (by decide)
  rw [Console.scroll, hrows, take_of_length_le htail, Option.map_some]
  dsimp only [Console.clear]
  rw [hlast, ← cstr_nil, fillSlots_row (h.fitsRow _) fitsRow_nil]

/-- The lines move up with the rows. -/
theorem HoldsLines.scroll (h : HoldsLines buffer lines) (hfull : lines.length = kRows) :
    HoldsLines (setSlot (shiftDown buffer 0 (kRows - 1)) (kRows - 1) (cstr []))
      (lines.tail ++ [[]]) := by
  have htail : lines.tail.length = kRows - 1 := by rw [length_tail, hfull]
  refine ⟨?_, fits_concat_nil fun l hl => h.fits l (mem_of_mem_tail hl), fun row hlt => ?_⟩
  · rw [length_append, htail]
    exact Nat.le_refl _
  · rw [getD_concat, htail, setSlot]
    by_cases heq : row = kRows - 1
    · rw [if_pos heq, if_pos heq]
    · have hnext : lines.getD (row + 1) [] = lines.tail.getD row [] := by
        rw [getD_eq_getElem _ _ (by omega), getD_eq_getElem _ _ (by omega),
          getElem_tail]
      rw [if_neg heq, if_neg heq, shiftDown_apply, if_pos (by omega), h.buffer _ (by omega), hnext]

/-- **A newline** in the last row. -/
theorem Shows.newline_scroll (h : Shows hankaku start con lines) (hfull : lines.length = kRows) :
    ∃ con', con.newline hankaku = some con' ∧ Shows hankaku start con' (lines.tail ++ [[]]) := by
  have hrow := h.cursorRow
  have hlast : ¬ con.cursorRow < kRows - 1 := by omega
  rw [Console.newline, if_neg hlast,
    @scroll_eq hankaku { con with cursorColumn := 0 } lines h.toHoldsLines hfull]
  refine ⟨_, rfl, h.toHoldsLines.scroll hfull, ?_, ?_, h.colors,
    ({ con with cursorColumn := 0 } : Console).clear.screen, rfl, ?_, ?_⟩
  · rw [length_append, length_tail, hfull]
    show con.cursorRow + 1 = kRows - 1 + 1
    omega
  · rw [getLastD_concat]
    rfl
  · intro p hp _
    show writePixels con.bgColor clearedArea.pixels con.screen.pixel p = _
    rw [writePixels_apply, if_pos hp]
    exact h.colors.2
  · rw [cells_concat, rowCells, mapIdx_nil, append_nil, ← h.colors.1]

section Runs

variable (h : Shows hankaku start con (window kRows (kColumns - 1) lineFeed text))
include h

/-- **One character** of a text. -/
theorem Shows.step (hascii : IsAscii c) :
    ∃ con', con.putChar hankaku c = some con' ∧
      Shows hankaku start con' (window kRows (kColumns - 1) lineFeed (text ++ [c])) := by
  have hrows : 0 < kRows := by decide
  by_cases hc : c = lineFeed
  · rw [Console.putChar, if_pos hc, hc, window_concat_sep hrows]
    split
    case isTrue hroom => exact h.newline_room hroom
    case isFalse hfull => exact h.newline_scroll (le_antisymm h.length_le (not_lt.mp hfull))
  · obtain ⟨lines, line, hwindow, hwindow'⟩ := window_concat (w := kColumns - 1) hrows hc text
    rw [hwindow] at h
    rw [hwindow']
    exact h.putChar hc hascii

/-- The loop is not cut off. -/
theorem Shows.putFrom {s : List UInt8} {i : Nat} (hs : ∀ c ∈ s, IsAscii c)
    (hi : i + s.length < sysMaxIter) :
    ∃ con', con.putFrom hankaku i s = some con' ∧
      Shows hankaku start con' (window kRows (kColumns - 1) lineFeed (text ++ s)) := by
  induction s generalizing con text i with
  | nil =>
    rw [append_nil]
    exact ⟨con, rfl, h⟩
  | cons c s ih =>
    rw [length_cons] at hi
    obtain ⟨con', hput, hshows⟩ := h.step (hs c mem_cons_self)
    obtain ⟨con'', hrest, hshows'⟩ := ih hshows (fun b hb => hs b (mem_cons_of_mem c hb))
      (i := i + 1) (by omega)
    rw [append_assoc] at hshows'
    refine ⟨con'', ?_, hshows'⟩
    rw [Console.putFrom, if_pos (by omega), hput]
    exact hrest

/-- **Any strings.** -/
theorem Shows.run (strs : List AsciiString) :
    ∃ con', (consoleMachine hankaku).run con strs = some con' ∧
      Shows hankaku start con'
        (window kRows (kColumns - 1) lineFeed (text ++ strs.flatMap Subtype.val)) := by
  induction strs generalizing con text with
  | nil =>
    rw [flatMap_nil, append_nil]
    exact ⟨con, rfl, h⟩
  | cons s strs ih =>
    obtain ⟨con', hput, hshows⟩ := h.putFrom s.2.2 (i := 0) (by rw [Nat.zero_add]; exact s.2.1)
    obtain ⟨con'', hrun, hshows'⟩ := ih hshows
    rw [append_assoc, ← flatMap_cons] at hshows'
    refine ⟨con'', ?_, hshows'⟩
    rw [Machine.run_cons hput]
    exact hrun

end Runs

end Step

/-- A new console shows one empty line. -/
theorem shows_new (hankaku : Nat → UInt8) (pixel : Int × Int → PixelColor)
    (fgColor bgColor : PixelColor) :
    Shows hankaku (.new pixel fgColor bgColor) (.new pixel fgColor bgColor) [[]] where
  length_le := by decide
  fits line hline := by
    rw [mem_singleton.mp hline]
    exact fitsRow_nil
  buffer row _ := by
    cases row with
    | zero => rfl
    | succ row => rfl
  cursorRow := rfl
  cursorColumn := rfl
  colors := ⟨rfl, rfl⟩
  screen := ⟨⟨pixel, []⟩, rfl, fun p _ hp => hp, draw_nil.symm⟩

/-! ## All that was printed -/

section Cells

variable {buffer : Nat → Nat → UInt8} {lines : List (List UInt8)} {line : List UInt8}
  {row column dx dy : Nat}

/-- The characters of a row are those of its line. -/
theorem filter_row (h : FitsRow line) :
    ((List.range (kColumns + 1)).filter fun column => cstr line column ≠ 0) =
      List.range line.length := by
  have hwide := h.1
  obtain ⟨rest, hrest⟩ : ∃ rest, kColumns + 1 = line.length + rest :=
    ⟨kColumns + 1 - line.length, by omega⟩
  rw [hrest, range_add, filter_append, filter_eq_self.mpr,
    filter_eq_nil_iff.mpr, append_nil]
  · intro i hi
    obtain ⟨k, -, rfl⟩ := mem_map.mp hi
    have hend := mt h.cstr_ne_zero_iff.mp (Nat.not_lt.mpr (Nat.le_add_right line.length k))
    simpa using hend
  · intro i hi
    simpa using h.cstr_ne_zero_iff.mpr (mem_range.mp hi)

theorem map_row_cells (h : FitsRow line) (row : Nat) :
    (((List.range (kColumns + 1)).filter fun column => cstr line column ≠ 0).map
      fun (column : Nat) => Ascii.mk (8 * column) (16 * row) (cstr line column)) =
      rowCells row line := by
  rw [filter_row h]
  refine ext_getElem ?_ fun i hi hi' => ?_
  · rw [length_map, length_range, rowCells, length_mapIdx]
  · have hlt : i < line.length := by simpa using hi
    simp [rowCells, cstr, hlt]

/-- The cells of the buffer are those of the lines it holds. -/
theorem bufferCells_eq (h : HoldsLines buffer lines) : bufferCells buffer = cells lines := by
  have hlength := h.length_le
  have hrow : ∀ row ∈ List.range kRows, (((List.range (kColumns + 1)).filter
      fun column => buffer row column ≠ 0).map
      fun (column : Nat) => Ascii.mk (8 * column) (16 * row) (buffer row column)) =
        rowCells row (lines.getD row []) := by
    intro row hmem
    rw [h.buffer row (mem_range.mp hmem)]
    exact map_row_cells (h.fitsRow row) row
  obtain ⟨rest, hrest⟩ : ∃ rest, kRows = lines.length + rest :=
    ⟨kRows - lines.length, by omega⟩
  have hend : ∀ k, rowCells (lines.length + k) (lines.getD (lines.length + k) []) = [] := by
    intro k
    rw [getD_eq_default _ _ (Nat.le_add_right _ _)]
    rfl
  have hlines : (List.range lines.length).map (fun row => rowCells row (lines.getD row [])) =
      lines.mapIdx rowCells := by
    refine ext_getElem (by simp) fun i hi hi' => ?_
    have hlt : i < lines.length := by simpa using hi
    simp [hlt]
  rw [bufferCells, flatMap_congr hrow, hrest, range_add, flatMap_append,
    flatMap_map, flatMap_eq_nil_iff.mpr fun k _ => hend k, append_nil,
    flatMap_def, hlines, cells]

/-- What the characters of a buffer paint in a cell is the letter of the cell's character. -/
theorem mem_bufferCells_pixels {hankaku : Nat → UInt8} (hascii : ∀ row < kRows, ∀ column,
    buffer row column < 128) (hrow : row < kRows) (hcolumn : column < kColumns) (hdx : dx < 8)
    (hdy : dy < 16) :
    ((8 * column + dx, 16 * row + dy) : Int × Int) ∈
        (bufferCells buffer).flatMap (Ascii.pixels hankaku) ↔
      buffer row column ≠ 0 ∧
        (hankaku (16 * (buffer row column).toNat + dy)).toNat <<< dx &&& 0x80 ≠ 0 := by
  simp only [bufferCells, mem_flatMap, mem_map, mem_filter, mem_range,
    decide_eq_true_eq]
  constructor
  · rintro ⟨a, ⟨row', hrow', column', ⟨hcolumn', hchar⟩, rfl⟩, hp⟩
    obtain ⟨dx', hdx', dy', hdy', hbit, heq⟩ := (Ascii.mem_pixels (hascii row' hrow' _)).mp hp
    simp only [Prod.mk.injEq] at heq
    -- the cells do not overlap
    have hcell : column' = column ∧ row' = row ∧ dx' = dx ∧ dy' = dy := by omega
    obtain ⟨rfl, rfl, rfl, rfl⟩ := hcell
    exact ⟨hchar, hbit⟩
  · rintro ⟨hchar, hbit⟩
    refine ⟨_, ⟨row, hrow, column, ⟨Nat.lt_succ_of_lt hcolumn, hchar⟩, rfl⟩, ?_⟩
    exact (Ascii.mem_pixels (hascii row hrow _)).mpr ⟨dx, hdx, dy, hdy, hbit, rfl⟩

/-- The cells lie in the area that is cleared. -/
theorem mem_clearedArea (hrow : row < kRows) (hcolumn : column < kColumns) (hdx : dx < 8)
    (hdy : dy < 16) : ((8 * column + dx, 16 * row + dy) : Int × Int) ∈ clearedArea.pixels := by
  rw [Rect.mem_pixels, clearedArea]
  simp only [kRows, kColumns] at hrow hcolumn ⊢
  omega

end Cells

/-- **The console**, from its construction on: after any ASCII strings the buffer holds the last
lines of all that was printed, the unfinished one included, each cut to a row and with NULs behind
it; the cursor is at the end of the last of them; the characters that were drawn since the screen
was cleared are those of the buffer; and each cell shows the letter of its character in the
foreground colour, pixel by pixel as the table of letters has it, if it had the background colour at
first. -/
theorem console_run (hankaku : Nat → UInt8) (pixel : Int × Int → PixelColor)
    (fgColor bgColor : PixelColor) (strs : List AsciiString) :
    ∃ con, (consoleMachine hankaku).run (.new pixel fgColor bgColor) strs = some con ∧
      let lines := window kRows (kColumns - 1) lineFeed (strs.flatMap Subtype.val)
      (∀ row < kRows, con.buffer row = cstr (lines.getD row [])) ∧
      con.cursorRow + 1 = lines.length ∧ con.cursorColumn = (lines.getLastD []).length ∧
      con.screen.drawn = bufferCells con.buffer ∧
      ∀ row < kRows, ∀ column < kColumns, ∀ dx < 8, ∀ dy < 16,
        pixel (8 * column + (dx : Nat), 16 * row + (dy : Nat)) = bgColor →
        con.screen.pixel (8 * column + (dx : Nat), 16 * row + (dy : Nat)) =
          if con.buffer row column ≠ 0 ∧
            (hankaku (16 * (con.buffer row column).toNat + dy)).toNat <<< dx &&& 0x80 ≠ 0
          then fgColor else bgColor := by
  have hstart := shows_new hankaku pixel fgColor bgColor
  have hempty : window kRows (kColumns - 1) lineFeed [] = [[]] := window_nil (by decide)
  rw [← hempty] at hstart
  obtain ⟨con, hrun, hshows⟩ := hstart.run strs
  rw [nil_append] at hshows
  obtain ⟨base, hbase, hclear, hscreen⟩ := hshows.screen
  have hcells := bufferCells_eq hshows.toHoldsLines
  refine ⟨con, hrun, hshows.buffer, hshows.cursorRow, hshows.cursorColumn, ?_, ?_⟩
  · rw [hscreen, hcells, Screen.draw, hbase, nil_append]
  · intro row hrow column hcolumn dx hdx dy hdy hpixel
    have hascii : ∀ row < kRows, ∀ column, con.buffer row column < 128 := by
      intro row hrow column
      rw [hshows.buffer row hrow]
      exact (hshows.fitsRow row).cstr_lt column
    simp only [← mem_bufferCells_pixels hascii hrow hcolumn hdx hdy]
    rw [hscreen, hcells]
    show writePixels fgColor _ base.pixel _ = _
    rw [writePixels_apply, hclear _ (mem_clearedArea hrow hcolumn hdx hdy) hpixel]
    rfl

end UnagiOs
