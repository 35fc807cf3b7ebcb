import UnagiOs.Drivers.Keyboard
import UnagiOs.Graphic.Textbox
import UnagiOs.Kernel.Keys

/-!
# The console (`console_main` of kernel.c)

The console takes one datum after the other from its FIFO: keys, and the data of the timer that
makes its cursor blink. It keeps which Shift keys are down in three bits and the command in the line
of its text box; at Enter it compares the line with the commands it knows.

`Session` is what the console is for: all keys so far, and the characters since the last Enter. A
Shift key is down if its last scancode was a press, Caps Lock is on if it was pressed an odd number
of times, and a character is that of its key with Shift if exactly one of the two holds.

- `console_session`: the console does that, whatever the data are and for as long as it runs, and it
  runs until a scancode leads outside of the tables of the keyboard.
- `console_inside`: it draws inside of its rectangle only.
-/

namespace UnagiOs

open List

/-! ## The model -/

/-- What `console_main` works on, with the global `LRShift`. -/
structure Shell where
  lrShift : BitVec 32
  d : Drawing
  cursorColor : Int
  /-- what the timer sends next -/
  timer : Int

inductive Command where
  | cls
  | whoami
  | other
  deriving DecidableEq, Repr

def clsName : List UInt8 := [99, 108, 115]

def whoamiName : List UInt8 := [119, 104, 111, 97, 109, 105]

/-- The characters of a string literal. -/
def literal (s : List UInt8) (h : 0 ∉ s) : List LineChar :=
  s.attach.map fun c => ⟨c.1, fun h0 => h (h0 ▸ c.2)⟩

/-- `OS_NAME` -/
def osName : List LineChar :=
  literal [112, 108, 97, 99, 101, 104, 111, 108, 100, 101, 114] (by decide)

def prompt : List LineChar := [⟨62, by decide⟩]

/-- The Shift keys and Caps Lock. -/
def nextShift (lrShift : BitVec 32) (kbdscancode : UInt8) : BitVec 32 :=
  let lrShift := if kbdscancode = 0x2a then lrShift ||| 1 else lrShift
  let lrShift := if kbdscancode = 0x36 then lrShift ||| 2 else lrShift
  let lrShift := if kbdscancode = 0x2a ||| breakMask then lrShift &&& ~~~1 else lrShift
  let lrShift := if kbdscancode = 0x36 ||| breakMask then lrShift &&& ~~~2 else lrShift
  if kbdscancode = 0x3a then lrShift ^^^ 4 else lrShift

namespace Shell

variable (hankaku : Int → UInt8) (sh : Shell)

/-- `v_textbox_boxfill8` -/
def fill (color x0 y0 x1 y1 : Int) : Shell :=
  { sh with d := { sh.d with drawn := sh.d.drawn ++ vTextboxBoxfill8 sh.d.t color x0 y0 x1 y1 } }

/-- `v_textbox_putfonts8_asc` -/
def print (color : Int) (s : List LineChar) : Shell :=
  { sh with d := vTextboxPutfonts8Asc hankaku sh.d color s }

/-- `v_textbox_linebuf_clear` -/
def linebufClear : Option Shell :=
  (vTextboxLinebufClear sh.d.t).map fun t => { sh with d := { sh.d with t } }

/-- A round of the loop that clears the rest of the line. -/
def erase (j : Nat) : Shell :=
  let t := sh.d.t
  sh.fill t.bgColor (t.boxX + j) t.boxY (t.boxX + j + t.incrementX) (t.boxY + t.incrementY)

/-- `for (x = t->boxX; x <= t->bufXE - t->incrementX; x++)` -/
def eraseRest : Shell :=
  let t := sh.d.t
  (List.range (t.bufXE - t.incrementX - t.boxX + 1).toNat).foldl erase sh

/-- `kstrcmp(lb, ...) == 0` -/
def lineIs (name : List UInt8) : Option Bool :=
  (kstrcmp sh.d.t.lineBuf (cstr name) osTextboxLineBufferSize.toNat).map fun r => r == 0

/-- The answer to `cls`. -/
def runCls : Option Shell :=
  (vTextboxReset sh.d).map fun d => ({ sh with d } : Shell).print hankaku d.t.charColor prompt

/-- The answer to `whoami`. -/
def runWhoami : Option Shell :=
  let color := sh.d.t.charColor
  let sh := sh.print hankaku color [newlineChar]
  let sh := sh.print hankaku 15 osName
  let sh := sh.print hankaku color [newlineChar]
  (sh.print hankaku color prompt).linebufClear

/-- The answer to anything else. -/
def runOther : Option Shell :=
  let color := sh.d.t.charColor
  let sh := sh.print hankaku color [newlineChar]
  (sh.print hankaku color prompt).linebufClear

/-- Enter: what is in the line is a command. -/
def enter : Option (Shell × Command) :=
  let sh := sh.eraseRest
  (sh.lineIs clsName).bind fun isCls =>
    if isCls then (sh.runCls hankaku).map (·, .cls)
    else
      (sh.lineIs whoamiName).bind fun isWhoami =>
        if isWhoami then (sh.runWhoami hankaku).map (·, .whoami)
        else (sh.runOther hankaku).map (·, .other)

def shift (kbdscancode : UInt8) : Shell :=
  { sh with lrShift := nextShift sh.lrShift kbdscancode }

/-- `!!((LRShift & 3) > 0) ^ !!(LRShift & 4)` -/
def isShift : Bool := (0 < sh.lrShift &&& 3) ^^ (sh.lrShift &&& 4 ≠ 0)

/-- A character is entered and drawn; a full line is not noticed. -/
def echo (c : LineChar) : Option Shell :=
  let prevX := sh.d.t.boxX
  let prevY := sh.d.t.boxY
  (vTextboxLinebufAddchar sh.d.t c).map fun r =>
    let sh := { sh with d := { sh.d with t := r.1 } }
    let t := sh.d.t
    (sh.fill t.bgColor prevX prevY (prevX + t.incrementX) (prevY + t.incrementY)).print hankaku
      t.charColor [c]

/-- The end of the loop: the cursor. -/
def cursor (i : Int) : Shell :=
  let sh := if i = 21 then { sh with timer := 20, cursorColor := 7 } else sh
  let sh := if i = 20 then { sh with timer := 21, cursorColor := 0 } else sh
  let t := sh.d.t
  sh.fill sh.cursorColor t.boxX t.boxY (t.boxX + 7) (t.boxY + 15)

/-- What is done with a scancode. -/
def key (i : Int) (kbdscancode : UInt8) : Option (Shell × Option Command) :=
  if kbdscancode = 0x0e ∨ kbdscancode = 0x0f then some (sh, none)
  else if kbdscancode = 0x1c then (sh.enter hankaku).map fun r => (r.1, some r.2)
  else
    let sh := sh.shift kbdscancode
    (inputGetChar kbdscancode sh.isShift).bind fun c =>
      if h : c = 0 then some (sh, none)
      else (sh.echo hankaku ⟨c, h⟩).map fun sh => (sh.cursor i, none)

/-- What is done with a datum from the FIFO, and the command, if one is run. -/
def datum (i : Int) : Option (Shell × Option Command) :=
  if isKey i then sh.key hankaku i (UInt8.ofNat (i - devFifoKbdStart).toNat)
  else some (sh.cursor i, none)

end Shell

/-- `console_main` up to its loop. -/
def consoleMain (hankaku : Int → UInt8) (t : TEXTBOX) : Shell :=
  ({ lrShift := 0, d := ⟨t, []⟩, cursorColor := 7, timer := 20 } : Shell).print hankaku t.charColor
    prompt

/-- The loop of `console_main`. -/
def consoleLoop (hankaku : Int → UInt8) : Transducer Shell Int (Option Command) where
  step sh i := sh.datum hankaku i

/-! ## What the console is for -/

/-- A key is down. -/
def isDown (press : UInt8) (history : List UInt8) : Bool :=
  (history.filter fun c => c = press ∨ c = press ||| breakMask).getLast? == some press

/-- Caps Lock is on. -/
def capsLock (history : List UInt8) : Bool := history.count 0x3a % 2 == 1

/-- Characters are those with Shift. -/
def shifted (history : List UInt8) : Bool :=
  (isDown 0x2a history || isDown 0x36 history) ^^ capsLock history

/-- The scancodes so far, and the line. -/
structure Session where
  history : List UInt8
  line : List UInt8

namespace Session

def start : Session := ⟨[], []⟩

/-- The character that a scancode stands for, 0 if there is none. -/
def char (s : Session) (code : UInt8) : UInt8 :=
  (inputGetChar code (shifted (s.history ++ [code]))).getD 0

/-- The character is the one on the key, with or without Shift. -/
theorem char_eq (s : Session) (code : UInt8) :
    s.char code = keyChar code (shifted (s.history ++ [code])) :=
  inputGetChar_getD code _

/-- A scancode. -/
def next (s : Session) (code : UInt8) : Session where
  history := s.history ++ [code]
  line :=
    if code = 0x1c then []
    else if s.char code = 0 ∨ (s.line.length : Int) = osTextboxLineBufferSize - 1 then s.line
    else s.line ++ [s.char code]

/-- The command that is run. -/
def command (s : Session) (code : UInt8) : Option Command :=
  if code = 0x1c then
    some (if s.line = clsName then .cls else if s.line = whoamiName then .whoami else .other)
  else none

/-- The commands of a session. -/
def commands : Session → List UInt8 → List Command
  | _, [] => []
  | s, code :: codes => (s.command code).toList ++ commands (s.next code) codes

end Session

/-- The scancodes among the data. -/
def scancodes (is : List Int) : List UInt8 :=
  (is.filter isKey).map fun i => UInt8.ofNat (i - devFifoKbdStart).toNat

theorem scancodes_append (is js : List Int) :
    scancodes (is ++ js) = scancodes is ++ scancodes js := by
  rw [scancodes, filter_append, map_append]
  rfl

theorem Session.commands_append (s : Session) (codes codes' : List UInt8) :
    s.commands (codes ++ codes') =
      s.commands codes ++ (codes.foldl Session.next s).commands codes' := by
  induction codes generalizing s with
  | nil => rfl
  | cons code codes ih =>
    rw [cons_append, Session.commands, Session.commands, ih, append_assoc]
    rfl

/-! ## Shift -/

/-- The bits of `LRShift`. -/
def shiftBits (left right caps : Bool) : BitVec 32 :=
  (if left then 1 else 0) ||| (if right then 2 else 0) ||| (if caps then 4 else 0)

theorem isShift_eq {sh : Shell} {left right caps : Bool}
    (h : sh.lrShift = shiftBits left right caps) : sh.isShift = ((left || right) ^^ caps) := by
  rw [Shell.isShift, h]
  clear h
  revert left right caps
  decide

/-- The last scancode of a key decides. -/
theorem isDown_append {press : UInt8} (hpress : press ≠ press ||| breakMask)
    (history : List UInt8) (code : UInt8) :
    isDown press (history ++ [code]) =
      if code = press then true
      else if code = press ||| breakMask then false
      else isDown press history := by
  unfold isDown
  rw [filter_append]
  by_cases hdown : code = press
  · rw [if_pos hdown, filter_cons_of_pos (by simp [hdown]), filter_nil,
      getLast?_concat, hdown]
    exact beq_self_eq_true _
  · rw [if_neg hdown]
    by_cases hup : code = press ||| breakMask
    · rw [if_pos hup, filter_cons_of_pos (by simp [hup]), filter_nil,
        getLast?_concat, hup]
      exact beq_eq_false_iff_ne.mpr fun h => hpress (Option.some.inj h).symm
    · rw [if_neg hup, filter_cons_of_neg (by simp [hdown, hup]), filter_nil,
        append_nil]

theorem capsLock_append (history : List UInt8) (code : UInt8) :
    capsLock (history ++ [code]) = (capsLock history ^^ decide (code = 0x3a)) := by
  unfold capsLock
  rw [count_append]
  by_cases hcode : code = 0x3a
  · rw [hcode, count_singleton_self, decide_eq_true rfl, Bool.xor_true]
    rcases Nat.mod_two_eq_zero_or_one (history.count 0x3a) with h | h
    · rw [Nat.add_mod, h]
      rfl
    · rw [Nat.add_mod, h]
      rfl
  · have hnone : List.count 0x3a [code] = 0 :=
      count_eq_zero_of_not_mem fun h => hcode (mem_singleton.mp h).symm
    rw [hnone, Nat.add_zero, decide_eq_false hcode, Bool.xor_false]

/-- `LRShift` says which keys are down. -/
def ShiftsAs (sh : Shell) (history : List UInt8) : Prop :=
  sh.lrShift = shiftBits (isDown 0x2a history) (isDown 0x36 history) (capsLock history)

theorem ShiftsAs.shift {sh : Shell} {history : List UInt8} (h : ShiftsAs sh history)
    (code : UInt8) : ShiftsAs (sh.shift code) (history ++ [code]) := by
  have hnext : (sh.shift code).lrShift = nextShift sh.lrShift code := rfl
  unfold ShiftsAs
  rw [hnext, isDown_append (by decide), isDown_append (by decide), capsLock_append, h]
  have hbits : ∀ code left right caps, nextShift (shiftBits left right caps) code =
      shiftBits (if code = 0x2a then true else if code = 0x2a ||| breakMask then false else left)
        (if code = 0x36 then true else if code = 0x36 ||| breakMask then false else right)
        (caps ^^ decide (code = 0x3a)) := forall_scancode (by decide +kernel)
  exact hbits code _ _ _

/-! ## The line -/

section Line

variable {hankaku : Int → UInt8} {sh : Shell} {t t' : TEXTBOX} {l : Line}

theorem HoldsLine.congr (h : HoldsLine t l) (hbuf : t'.lineBuf = t.lineBuf)
    (heol : t'.lineEolPos = t.lineEolPos) (hpos : t'.lineCharPos = t.lineCharPos) :
    HoldsLine t' l :=
  ⟨hbuf.trans h.lineBuf, heol.trans h.lineEolPos, hpos.trans h.lineCharPos, h.room⟩

/-- Printing moves the place and leaves the line alone. -/
theorem HoldsLine.print (h : HoldsLine sh.d.t l) (color : Int) (s : List LineChar) :
    HoldsLine (sh.print hankaku color s).d.t l := by
  show HoldsLine (s.foldl (vTextboxPutAsc hankaku) sh.d).t l
  generalize sh.d = d at h ⊢
  induction s generalizing d with
  | nil => exact h
  | cons c s ih =>
    refine ih (vTextboxPutAsc hankaku d c) ?_
    rw [vTextboxPutAsc]
    split
    · exact h.congr rfl rfl rfl
    · exact h.congr rfl rfl rfl

theorem eraseRest_frame (sh : Shell) :
    sh.eraseRest.d.t = sh.d.t ∧ sh.eraseRest.lrShift = sh.lrShift := by
  unfold Shell.eraseRest
  dsimp only
  generalize List.range _ = js
  induction js generalizing sh with
  | nil => exact ⟨rfl, rfl⟩
  | cons j js ih => exact ih (sh.erase j)

theorem lineIs_eq (h : HoldsLine sh.d.t l) (name : List UInt8) (hname : 0 ∉ name) :
    sh.lineIs name = some (decide (l.text = name)) := by
  obtain ⟨r, hr, hiff⟩ := h.kstrcmp hname
  rw [Shell.lineIs, hr, Option.map_some]
  exact congrArg some (Bool.eq_iff_iff.mpr (by rw [beq_iff_eq, hiff, decide_eq_true_iff]))

end Line

/-! ## Steps -/

/-- The console is where the session is. -/
structure Follows (sh : Shell) (s : Session) : Prop where
  shift : ShiftsAs sh s.history
  line : ∃ l, HoldsLine sh.d.t l ∧ l.text = s.line ∧ l.cursor = l.text.length

namespace Follows

variable {sh : Shell} {s : Session} {code : UInt8}

/-- A scancode without a character. -/
theorem next_of_char_zero (hcode : code ≠ 0x1c) (hzero : s.char code = 0) :
    s.next code = ⟨s.history ++ [code], s.line⟩ := by
  rw [Session.next, if_neg hcode, if_pos (Or.inl hzero)]

/-- Backspace and Tab, which are left out as yet, would have no character either. -/
theorem char_backspace_tab (s : Session) : s.char 0x0e = 0 ∧ s.char 0x0f = 0 := by
  have hrows : ∀ shift, keyChar 0x0e shift = 0 ∧ keyChar 0x0f shift = 0 := by decide +kernel
  rw [s.char_eq, s.char_eq]
  exact ⟨(hrows _).1, (hrows _).2⟩

variable (h : Follows sh s) (hankaku : Int → UInt8)
include h

theorem cursor (i : Int) : Follows (sh.cursor i) s := by
  unfold Shell.cursor
  split <;> split <;> exact ⟨h.shift, h.line⟩

theorem print {hankaku : Int → UInt8} (color : Int) (text : List LineChar) :
    Follows (sh.print hankaku color text) s := by
  obtain ⟨l, hl, hline⟩ := h.line
  exact ⟨h.shift, l, hl.print color text, hline⟩

/-- An empty line after the answer to a command. -/
theorem linebufClear :
    ∃ sh', sh.linebufClear = some sh' ∧ Follows sh' ⟨s.history, []⟩ := by
  obtain ⟨l, hl, -⟩ := h.line
  obtain ⟨t', hclear, hholds⟩ := hl.clear
  exact ⟨{ sh with d := { sh.d with t := t' } }, by rw [Shell.linebufClear, hclear]; rfl,
    h.shift, .empty, hholds, rfl, rfl⟩

theorem runCls :
    ∃ sh', sh.runCls hankaku = some sh' ∧ Follows sh' ⟨s.history, []⟩ := by
  obtain ⟨l, hl, -⟩ := h.line
  have hhome : HoldsLine { sh.d.t with boxX := 0, boxY := 0 } l := hl.congr rfl rfl rfl
  obtain ⟨t', hclear, hholds⟩ := hhome.clear
  have hcleared : ∀ drawn, Follows { sh with d := ⟨t', drawn⟩ } ⟨s.history, []⟩ :=
    fun _ => ⟨h.shift, .empty, hholds, rfl, rfl⟩
  rw [Shell.runCls, vTextboxReset, hclear]
  exact ⟨_, rfl, (hcleared _).print _ _⟩

theorem runWhoami :
    ∃ sh', sh.runWhoami hankaku = some sh' ∧ Follows sh' ⟨s.history, []⟩ :=
  ((((h.print _ _).print _ _).print _ _).print _ _).linebufClear

theorem runOther :
    ∃ sh', sh.runOther hankaku = some sh' ∧ Follows sh' ⟨s.history, []⟩ :=
  ((h.print _ _).print _ _).linebufClear

theorem eraseRest : Follows sh.eraseRest s := by
  obtain ⟨ht, hlr⟩ := eraseRest_frame sh
  refine ⟨?_, ?_⟩
  · unfold ShiftsAs
    rw [hlr]
    exact h.shift
  · rw [ht]
    exact h.line

/-- Enter does not touch `LRShift`, and the scancode is none of a Shift key. -/
theorem enter_history : Follows sh ⟨s.history ++ [0x1c], s.line⟩ :=
  ⟨h.shift.shift 0x1c, h.line⟩

/-- Enter runs the command of the line, and the session goes on with an empty one. -/
theorem enter :
    ∃ sh' cmd, sh.enter hankaku = some (sh', cmd) ∧ s.command 0x1c = some cmd ∧
      Follows sh' (s.next 0x1c) := by
  have hf := h.eraseRest.enter_history
  obtain ⟨l, hl, htext, -⟩ := h.eraseRest.line
  have hcls := lineIs_eq hl clsName (by decide)
  have hwhoami := lineIs_eq hl whoamiName (by decide)
  rw [htext] at hcls hwhoami
  unfold Shell.enter
  dsimp only
  rw [hcls, Option.bind_some]
  have hcommand : s.command 0x1c =
      some (if s.line = clsName then .cls else if s.line = whoamiName then .whoami else .other) :=
    if_pos rfl
  rw [hcommand]
  by_cases h1 : s.line = clsName
  · obtain ⟨sh', hrun, hfollows⟩ := hf.runCls hankaku
    rw [decide_eq_true h1, if_pos rfl, if_pos h1, hrun]
    exact ⟨sh', .cls, rfl, rfl, hfollows⟩
  rw [decide_eq_false h1, if_neg Bool.false_ne_true, if_neg h1, hwhoami, Option.bind_some]
  by_cases h2 : s.line = whoamiName
  · obtain ⟨sh', hrun, hfollows⟩ := hf.runWhoami hankaku
    rw [decide_eq_true h2, if_pos rfl, if_pos h2, hrun]
    exact ⟨sh', .whoami, rfl, rfl, hfollows⟩
  · obtain ⟨sh', hrun, hfollows⟩ := hf.runOther hankaku
    rw [decide_eq_false h2, if_neg Bool.false_ne_true, if_neg h2, hrun]
    exact ⟨sh', .other, rfl, rfl, hfollows⟩

/-- A character at the end of the line, unless it is full. -/
theorem echo (c : LineChar) :
    ∃ sh', sh.echo hankaku c = some sh' ∧ Follows sh' ⟨s.history,
      if (s.line.length : Int) = osTextboxLineBufferSize - 1 then s.line else s.line ++ [c.1]⟩ := by
  obtain ⟨l, hl, htext, hcursor⟩ := h.line
  rw [← htext]
  unfold Shell.echo
  dsimp only
  by_cases hfull : sh.d.t.lineEolPos = osTextboxLineBufferSize - 1
  · rw [addchar_full hfull, if_pos (hl.lineEolPos ▸ hfull)]
    have hsame : ∀ drawn, Follows { sh with d := ⟨sh.d.t, drawn⟩ } ⟨s.history, l.text⟩ :=
      fun _ => ⟨h.shift, l, hl, rfl, hcursor⟩
    exact ⟨_, rfl, (hsame _).print _ _⟩
  · obtain ⟨t', hadd, hholds⟩ := hl.addchar hfull c
    rw [hadd, if_neg (hl.lineEolPos ▸ hfull)]
    have hinsert : (l.insert c).text = l.text ++ [c.1] := by
      show l.text.insertIdx l.cursor c = _
      rw [hcursor, insertIdx_length_self]
    have hend : (l.insert c).cursor = (l.insert c).text.length := by
      rw [hinsert, length_append]
      exact congrArg (· + 1) hcursor
    have hadded : ∀ drawn, Follows { sh with d := ⟨t', drawn⟩ } ⟨s.history, l.text ++ [c.1]⟩ :=
      fun _ => ⟨h.shift, l.insert c, hholds, hinsert, hend⟩
    exact ⟨_, rfl, (hadded _).print _ _⟩

/-- **A scancode.** -/
theorem key (i : Int) (code : UInt8) :
    if OutsideTables code then sh.key hankaku i code = none
    else ∃ sh', sh.key hankaku i code = some (sh', s.command code) ∧
      Follows sh' (s.next code) := by
  -- backspace and tab are read and dropped
  by_cases hblank : code = 0x0e ∨ code = 0x0f
  · obtain ⟨hback, htab⟩ := char_backspace_tab s
    have hkey : sh.key hankaku i code = some (sh, none) := if_pos hblank
    rw [hkey]
    rcases hblank with rfl | rfl
    · rw [if_neg (by decide), next_of_char_zero (by decide) hback]
      exact ⟨sh, rfl, h.shift.shift 0x0e, h.line⟩
    · rw [if_neg (by decide), next_of_char_zero (by decide) htab]
      exact ⟨sh, rfl, h.shift.shift 0x0f, h.line⟩
  unfold Shell.key
  rw [if_neg hblank]
  by_cases henter : code = 0x1c
  · subst henter
    obtain ⟨sh', cmd, hrun, hcommand, hfollows⟩ := h.enter hankaku
    rw [if_neg (by decide), if_pos rfl, hrun, hcommand]
    exact ⟨sh', rfl, hfollows⟩
  rw [if_neg henter]
  have hf : Follows (sh.shift code) ⟨s.history ++ [code], s.line⟩ := ⟨h.shift.shift code, h.line⟩
  have hshift : (sh.shift code).isShift = shifted (s.history ++ [code]) := isShift_eq hf.shift
  have hsome := inputGetChar_isSome_iff code (shifted (s.history ++ [code]))
  have hcommand : s.command code = none := if_neg henter
  dsimp only
  rw [hshift]
  cases hc : inputGetChar code (shifted (s.history ++ [code])) with
  | none =>
    rw [hc] at hsome
    rw [if_pos (not_not.mp fun hn => Bool.false_ne_true (hsome.mpr hn))]
    rfl
  | some c =>
    rw [hc] at hsome
    have hchar : s.char code = c := by
      rw [Session.char, hc]
      rfl
    rw [if_neg (hsome.mp rfl), Option.bind_some, hcommand]
    by_cases hzero : c = 0
    · rw [dif_pos hzero, next_of_char_zero henter (hchar.trans hzero)]
      exact ⟨_, rfl, hf⟩
    · obtain ⟨sh', hecho, hfollows⟩ := hf.echo hankaku ⟨c, hzero⟩
      rw [dif_neg hzero, hecho]
      refine ⟨sh'.cursor i, rfl, ?_⟩
      have hnext : s.next code = ⟨s.history ++ [code],
          if (s.line.length : Int) = osTextboxLineBufferSize - 1 then s.line
          else s.line ++ [c]⟩ := by
        rw [Session.next, if_neg henter, hchar]
        exact congrArg _ (if_congr (or_iff_right hzero) rfl rfl)
      rw [hnext]
      exact hfollows.cursor i

/-- A datum. -/
theorem datum (i : Int) :
    if ∃ code ∈ scancodes [i], OutsideTables code then sh.datum hankaku i = none
    else ∃ sh' answer, sh.datum hankaku i = some (sh', answer) ∧
      answer.toList = s.commands (scancodes [i]) ∧
      Follows sh' ((scancodes [i]).foldl Session.next s) := by
  by_cases hi : isKey i = true
  · have hcodes : scancodes [i] = [UInt8.ofNat (i - devFifoKbdStart).toNat] := by
      rw [scancodes, filter_cons_of_pos hi]
      rfl
    have hkey := h.key hankaku i (UInt8.ofNat (i - devFifoKbdStart).toNat)
    rw [hcodes, Shell.datum, if_pos hi]
    generalize UInt8.ofNat (i - devFifoKbdStart).toNat = code at hkey ⊢
    have hiff : (∃ c ∈ [code], OutsideTables c) ↔ OutsideTables code := by simp
    rw [if_congr hiff rfl rfl]
    split
    next hout => rwa [if_pos hout] at hkey
    next hout =>
      rw [if_neg hout] at hkey
      obtain ⟨sh', hrun, hfollows⟩ := hkey
      exact ⟨sh', s.command code, hrun, (append_nil _).symm, hfollows⟩
  · have hcodes : scancodes [i] = [] := by
      rw [scancodes, filter_cons_of_neg hi]
      rfl
    rw [hcodes, Shell.datum, if_neg hi, if_neg (by simp)]
    exact ⟨_, none, rfl, rfl, h.cursor i⟩

/-- **All data.** The run comes back exactly if no scancode leads outside of the tables. -/
theorem run (is : List Int) :
    if ∃ code ∈ scancodes is, OutsideTables code then (consoleLoop hankaku).run sh is = none
    else ∃ sh' answers, (consoleLoop hankaku).run sh is = some (sh', answers) ∧
      answers.reduceOption = s.commands (scancodes is) ∧
      Follows sh' ((scancodes is).foldl Session.next s) := by
  induction is generalizing sh s with
  | nil =>
    rw [if_neg fun hc => not_mem_nil hc.choose_spec.1]
    exact ⟨sh, [], rfl, rfl, h⟩
  | cons i is ih =>
    have hdatum := h.datum hankaku i
    have hstep : (consoleLoop hankaku).step sh i = sh.datum hankaku i := rfl
    have hcodes : scancodes (i :: is) = scancodes [i] ++ scancodes is := scancodes_append [i] is
    rw [hcodes, Transducer.run, hstep]
    simp only [mem_append, or_and_right, exists_or]
    by_cases hout : ∃ code ∈ scancodes [i], OutsideTables code
    · rw [if_pos hout] at hdatum
      rw [if_pos (Or.inl hout), hdatum]
      rfl
    rw [if_neg hout] at hdatum
    obtain ⟨sh', answer, hrun, hanswer, hfollows⟩ := hdatum
    have hrest := ih hfollows
    rw [if_congr (or_iff_right hout) rfl rfl, hrun, Option.bind_some]
    split
    next hc =>
      rw [if_pos hc] at hrest
      rw [hrest]
      rfl
    next hc =>
      rw [if_neg hc] at hrest
      obtain ⟨sh'', answers, hrun', hanswers, hfollows'⟩ := hrest
      refine ⟨sh'', answer :: answers, by rw [hrun']; rfl, ?_, ?_⟩
      · rw [Session.commands_append, ← hanswer, ← hanswers]
        cases answer with
        | none => rfl
        | some cmd => rfl
      · rwa [foldl_append]

end Follows

theorem Session.history_foldl (s : Session) (codes : List UInt8) :
    (codes.foldl Session.next s).history = s.history ++ codes := by
  induction codes generalizing s with
  | nil => exact (append_nil _).symm
  | cons code codes ih =>
    rw [foldl_cons, ih]
    exact append_assoc s.history [code] codes

theorem Follows.start (hankaku : Int → UInt8) {t : TEXTBOX} (ht : HoldsLine t .empty) :
    Follows (consoleMain hankaku t) .start := by
  have hfresh : Follows ⟨0, ⟨t, []⟩, 7, 20⟩ .start :=
    ⟨show (0 : BitVec 32) = shiftBits _ _ _ by decide, .empty, ht, rfl, rfl⟩
  exact hfresh.print _ _

/-- **The console**, from the allocation of its text box on and whatever it is sent: it runs until a
scancode leads outside of the tables of the keyboard; until then it has run the commands that were
typed, its line is what was typed since, and it knows which keys are down. -/
theorem console_session (hankaku : Int → UInt8) (ctl : SHTCTL) (s : SheetId)
    (xS yS xE yE bgColor charBgColor charColor : Int) (is : List Int) :
    ∃ t, ((sheetTextboxAlloc ctl s xS yS xE yE bgColor charBgColor charColor).sheet0 s).textbox =
        some t ∧
      if ∃ code ∈ scancodes is, OutsideTables code then
        (consoleLoop hankaku).run (consoleMain hankaku t) is = none
      else ∃ sh answers, (consoleLoop hankaku).run (consoleMain hankaku t) is = some (sh, answers) ∧
        answers.reduceOption = Session.start.commands (scancodes is) ∧
        (∃ l, HoldsLine sh.d.t l ∧ l.text = ((scancodes is).foldl Session.next .start).line) ∧
        sh.isShift = shifted (scancodes is) := by
  obtain ⟨t, halloc, hempty⟩ := holdsLine_alloc ctl s xS yS xE yE bgColor charBgColor charColor
  refine ⟨t, halloc, ?_⟩
  have hrun := (Follows.start hankaku hempty).run hankaku is
  split
  next hc => rwa [if_pos hc] at hrun
  next hc =>
    rw [if_neg hc] at hrun
    obtain ⟨sh, answers, hrun, hanswers, hfollows⟩ := hrun
    obtain ⟨l, hl, htext, -⟩ := hfollows.line
    refine ⟨sh, answers, hrun, hanswers, ⟨l, hl, htext⟩, ?_⟩
    rw [isShift_eq hfollows.shift, Session.history_foldl]
    rfl

/-! ## Pixels -/

section Inside

variable {bufXsize bufYsize : Int} {a : TextArea bufXsize bufYsize} {hankaku : Int → UInt8}
  {sh sh' : Shell}

variable (h : DrawnInside a sh.d)
include h

theorem DrawnInside.fill (color : Int) {x0 y0 x1 y1 : Int}
    (h0 : 0 ≤ x0 ∧ 0 ≤ y0) (h1 : 0 ≤ x1 ∧ 0 ≤ y1) :
    DrawnInside a (sh.fill color x0 y0 x1 y1).d :=
  ⟨h.area, allInside_append.mpr ⟨h.inside, h.area.boxfill8 color h0 h1⟩⟩

theorem DrawnInside.eraseRest : DrawnInside a sh.eraseRest.d := by
  unfold Shell.eraseRest
  dsimp only
  generalize List.range _ = js
  induction js generalizing sh with
  | nil => exact h
  | cons j js ih =>
    have hx := h.area.boxX.1
    have hy := h.area.boxY.1
    have hX := h.area.incrementX
    have hY := h.area.incrementY
    exact ih (h.fill _ ⟨by omega, hy⟩ ⟨by omega, by omega⟩)

theorem DrawnInside.linebufClear (hk : sh.linebufClear = some sh') :
    DrawnInside a sh'.d := by
  obtain ⟨t', hclear, rfl⟩ := Option.map_eq_some_iff.mp hk
  obtain ⟨l, hl⟩ := h.area.line
  obtain ⟨t'', hclear', hholds⟩ := hl.clear
  obtain rfl := Option.some.inj (hclear.symm.trans hclear')
  exact ⟨h.area.sameBox (sameBox_clear hclear) hholds, h.inside⟩

theorem DrawnInside.cursor (i : Int) : DrawnInside a (sh.cursor i).d := by
  have hx := h.area.boxX.1
  have hy := h.area.boxY.1
  have hfill : ∀ color, DrawnInside a (sh.fill color sh.d.t.boxX sh.d.t.boxY (sh.d.t.boxX + 7)
      (sh.d.t.boxY + 15)).d := fun color => h.fill color ⟨hx, hy⟩ ⟨by omega, by omega⟩
  unfold Shell.cursor
  split <;> split <;> exact hfill _

variable (hfits : a.FitsLast hankaku)
include hfits

theorem DrawnInside.print (color : Int)
    (s : List LineChar) : DrawnInside a (sh.print hankaku color s).d :=
  h.putfonts8Asc hfits color s

/-- Every command stays inside. -/
theorem DrawnInside.enter {cmd : Command}
    (hk : sh.enter hankaku = some (sh', cmd)) : DrawnInside a sh'.d := by
  have he := h.eraseRest
  unfold Shell.enter at hk
  generalize sh.eraseRest = sh₀ at he hk
  obtain ⟨isCls, -, hk⟩ := Option.bind_eq_some_iff.mp hk
  split at hk
  · obtain ⟨sh'', hrun, ⟨⟩⟩ := Option.map_eq_some_iff.mp hk
    obtain ⟨d, hreset, rfl⟩ := Option.map_eq_some_iff.mp hrun
    obtain ⟨d', hreset', hd'⟩ := he.reset
    obtain rfl := Option.some.inj (hreset.symm.trans hreset')
    exact DrawnInside.print hd' hfits _ _
  · obtain ⟨isWhoami, -, hk⟩ := Option.bind_eq_some_iff.mp hk
    split at hk
    · obtain ⟨sh'', hrun, ⟨⟩⟩ := Option.map_eq_some_iff.mp hk
      exact DrawnInside.linebufClear
        ((((he.print hfits _ _).print hfits _ _).print hfits _ _).print hfits _ _) hrun
    · obtain ⟨sh'', hrun, ⟨⟩⟩ := Option.map_eq_some_iff.mp hk
      exact DrawnInside.linebufClear ((he.print hfits _ _).print hfits _ _) hrun

/-- A character is drawn inside of the area. -/
theorem DrawnInside.echo {c : LineChar}
    (hk : sh.echo hankaku c = some sh') : DrawnInside a sh'.d := by
  obtain ⟨⟨t', r⟩, hadd, rfl⟩ := Option.map_eq_some_iff.mp hk
  have hx := h.area.boxX.1
  have hy := h.area.boxY.1
  obtain ⟨l, hl⟩ := h.area.line
  obtain ⟨t'', hstep, hholds⟩ := hl.step (.addchar c)
  have hline : (vTextboxLinebufAddchar sh.d.t c).map Prod.fst = some t'' := hstep
  rw [hadd] at hline
  obtain rfl : t' = t'' := Option.some.inj hline
  have ht' : InArea a t' := h.area.sameBox (sameBox_addchar hadd) hholds
  have hX := ht'.incrementX
  have hY := ht'.incrementY
  have hright : 0 ≤ sh.d.t.boxX + t'.incrementX := by omega
  have hbottom : 0 ≤ sh.d.t.boxY + t'.incrementY := by omega
  refine DrawnInside.print ⟨ht', allInside_append.mpr ⟨h.inside, ?_⟩⟩ hfits _ _
  exact ht'.boxfill8 _ ⟨hx, hy⟩ ⟨hright, hbottom⟩

/-- **One datum.** -/
theorem DrawnInside.datum {i : Int}
    {answer : Option Command} (hk : sh.datum hankaku i = some (sh', answer)) :
    DrawnInside a sh'.d := by
  unfold Shell.datum at hk
  split at hk
  · unfold Shell.key at hk
    split at hk
    · cases hk
      exact h
    · split at hk
      · obtain ⟨⟨sh'', cmd⟩, henter, ⟨⟩⟩ := Option.map_eq_some_iff.mp hk
        exact h.enter hfits henter
      · obtain ⟨c, -, hk⟩ := Option.bind_eq_some_iff.mp hk
        split at hk
        · cases hk
          exact h
        · obtain ⟨sh'', hecho, ⟨⟩⟩ := Option.map_eq_some_iff.mp hk
          have hshift : DrawnInside a (sh.shift (UInt8.ofNat (i - devFifoKbdStart).toNat)).d := h
          exact (hshift.echo hfits hecho).cursor i
  · cases hk
    exact h.cursor i

end Inside

/-- **The console stays in its rectangle**, with any font, whatever is typed. -/
theorem console_inside (hankaku : Int → UInt8) (ctl : SHTCTL) (s : SheetId)
    (bgColor charBgColor charColor : Int) (is : List Int) :
    ∃ t, ((sheetTextboxAlloc ctl s consoleArea.xS consoleArea.yS consoleArea.xE consoleArea.yE
        bgColor charBgColor charColor).sheet0 s).textbox = some t ∧
      ∀ sh answers, (consoleLoop hankaku).run (consoleMain hankaku t) is = some (sh, answers) →
        consoleArea.AllInside sh.d.drawn := by
  obtain ⟨t, halloc, harea, -⟩ := inArea_alloc ctl s bgColor charBgColor charColor
  have hfits : consoleArea.FitsLast hankaku := consoleArea.fitsLast_of_room (by decide) hankaku
  have hstart : DrawnInside consoleArea (consoleMain hankaku t).d :=
    DrawnInside.print ⟨harea, fun dot hdot => absurd hdot not_mem_nil⟩ hfits _ _
  refine ⟨t, halloc, fun sh answers hrun => ?_⟩
  suffices hall : ∀ sh₀ : Shell, DrawnInside consoleArea sh₀.d →
      (consoleLoop hankaku).run sh₀ is = some (sh, answers) → DrawnInside consoleArea sh.d from
    (hall _ hstart hrun).inside
  clear hrun
  induction is generalizing answers with
  | nil =>
    intro sh₀ h₀ hrun
    cases hrun
    exact h₀
  | cons i is ih =>
    intro sh₀ h₀ hrun
    obtain ⟨⟨sh₁, answer⟩, hstep, hrun⟩ := Option.bind_eq_some_iff.mp hrun
    obtain ⟨⟨sh₂, answers'⟩, hrest, ⟨⟩⟩ := Option.map_eq_some_iff.mp hrun
    exact ih answers' sh₁ (h₀.datum hfits hstep) hrest

end UnagiOs
