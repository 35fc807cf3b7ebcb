import UnagiOs.Graphic.Sheet
import UnagiOs.Theory.Machine
import UnagiOs.Util.Fifo
import UnagiOs.Util.Kutil

/-!
# The line of a text box (drivers/graphic/videomode.c)

The console collects the characters of a command in `lineBuf` and compares the buffer with the names
of the commands. No operation writes a terminator. The comparison relies on what lies behind the
line being zero, from the allocation on: an insertion moves a zero up with the rest, `clear` makes
zeros of what was used, and a full line leaves the last byte of the buffer alone.

`Line` is what the buffer is for, a text and a place in it. A buffer that holds a line holds nothing
else (`HoldsLine`); every operation keeps this, and `linebuf_run` says so of any number of them. A
store outside of the buffer would be `none`.
-/

namespace UnagiOs

/-! ## The model -/

/-- `OS_TEXTBOX_LINE_BUFFER_SIZE`. -/
def osTextboxLineBufferSize : Int := 4096 * 10

/-- `lineBuf[i]`. -/
def loadLine (lineBuf : Nat → UInt8) (i : Int) : Option UInt8 :=
  if 0 ≤ i ∧ i < osTextboxLineBufferSize then some (lineBuf i.toNat) else none

/-- `lineBuf[i] = c`. -/
def storeLine (lineBuf : Nat → UInt8) (i : Int) (c : UInt8) : Option (Nat → UInt8) :=
  if 0 ≤ i ∧ i < osTextboxLineBufferSize then some (setSlot lineBuf i.toNat c) else none

/-- `for (i = pos + n - 1; i >= pos; i--) lineBuf[i+1] = lineBuf[i];` -/
def shiftLine (pos : Int) : Nat → (Nat → UInt8) → Option (Nat → UInt8)
  | 0, lineBuf => some lineBuf
  | n + 1, lineBuf =>
    (loadLine lineBuf (pos + n)).bind fun c =>
      (storeLine lineBuf (pos + n + 1) c).bind (shiftLine pos n)

/-- `v_textbox_linebuf_addchar`, with what it returns. -/
def vTextboxLinebufAddchar (t : TEXTBOX) (c : UInt8) : Option (TEXTBOX × Int) :=
  if t.lineEolPos ≥ osTextboxLineBufferSize - 1 then some (t, -eio)
  else
    let shifted :=
      if t.lineCharPos < t.lineEolPos then
        shiftLine t.lineCharPos (t.lineEolPos - t.lineCharPos + 1).toNat t.lineBuf
      else some t.lineBuf
    shifted.bind fun lineBuf =>
      (storeLine lineBuf t.lineCharPos c).map fun lineBuf =>
        ({ t with lineBuf, lineCharPos := t.lineCharPos + 1, lineEolPos := t.lineEolPos + 1 }, 0)

/-- `for (i = 0; i < n; i++) lineBuf[i] = 0;` -/
def zeroLine : Nat → (Nat → UInt8) → Option (Nat → UInt8)
  | 0, lineBuf => some lineBuf
  | n + 1, lineBuf => (zeroLine n lineBuf).bind fun lineBuf => storeLine lineBuf n 0

/-- `v_textbox_linebuf_clear`. -/
def vTextboxLinebufClear (t : TEXTBOX) : Option TEXTBOX :=
  (zeroLine t.lineEolPos.toNat t.lineBuf).map fun lineBuf =>
    { t with lineBuf, lineCharPos := 0, lineEolPos := 0 }

/-- A character to enter. -/
abbrev LineChar := { c : UInt8 // c ≠ 0 }

/-- What is done with the line. Nothing moves `lineCharPos` by itself as yet; it may be put anywhere
in the line. -/
inductive LineOp where
  | addchar (c : LineChar)
  | clear
  | moveTo (pos : Nat)

/-- The text box under the operations. -/
def lineMachine : Machine TEXTBOX LineOp where
  step t
    | .addchar c => (vTextboxLinebufAddchar t c).map Prod.fst
    | .clear => vTextboxLinebufClear t
    | .moveTo pos => some (if pos ≤ t.lineEolPos then { t with lineCharPos := pos } else t)

/-! ## What the line is for -/

/-- A text with a place in it. -/
structure Line where
  text : List UInt8
  nonzero : 0 ∉ text
  cursor : Nat
  cursor_le : cursor ≤ text.length

namespace Line

def empty : Line := ⟨[], List.not_mem_nil, 0, Nat.le_refl _⟩

/-- Enter a character. -/
def insert (l : Line) (c : LineChar) : Line where
  text := l.text.insertIdx l.cursor c
  nonzero h := ((List.mem_insertIdx l.cursor_le).mp h).elim (fun h0 => c.2 h0.symm) l.nonzero
  cursor := l.cursor + 1
  cursor_le := by
    rw [List.length_insertIdx_of_le_length l.cursor_le]
    exact Nat.succ_le_succ l.cursor_le

def step (l : Line) : LineOp → Line
  | .addchar c => if (l.text.length : Int) = osTextboxLineBufferSize - 1 then l else l.insert c
  | .clear => empty
  | .moveTo pos =>
    if h : pos ≤ l.text.length then { l with cursor := pos, cursor_le := h } else l

end Line

/-- The buffer holds the line and zeros behind it. -/
structure HoldsLine (t : TEXTBOX) (l : Line) : Prop where
  lineBuf : t.lineBuf = cstr l.text
  lineEolPos : t.lineEolPos = l.text.length
  lineCharPos : t.lineCharPos = l.cursor
  room : (l.text.length : Int) < osTextboxLineBufferSize

/-! ## Loops -/

theorem shiftLine_eq {pos n : Nat} (lineBuf : Nat → UInt8)
    (h : (pos + n : Int) < osTextboxLineBufferSize) :
    shiftLine pos n lineBuf = some (shiftUp lineBuf pos n) := by
  induction n generalizing lineBuf with
  | zero => rfl
  | succ n ih =>
    have hload : loadLine lineBuf (pos + n) = some (lineBuf (pos + n)) := by
      rw [loadLine, if_pos (by omega)]
      rfl
    have hstore : storeLine lineBuf (pos + n + 1) (lineBuf (pos + n)) =
        some (setSlot lineBuf (pos + n + 1) (lineBuf (pos + n))) := by
      rw [storeLine, if_pos (by omega)]
      rfl
    rw [shiftLine, hload, Option.bind_some, hstore, Option.bind_some, ih _ (by omega), shiftUp]

theorem zeroLine_eq {n : Nat} (lineBuf : Nat → UInt8) (h : (n : Int) ≤ osTextboxLineBufferSize) :
    zeroLine n lineBuf = some (fillSlots lineBuf 0 (fun _ => 0) n) := by
  induction n with
  | zero => rfl
  | succ n ih =>
    rw [zeroLine, ih (by omega), Option.bind_some, storeLine, if_pos (by omega), fillSlots,
      Nat.zero_add]
    rfl

/-- Making room and storing inserts. -/
theorem setSlot_shiftUp_cstr {text : List UInt8} {pos : Nat} (hpos : pos ≤ text.length)
    (c : UInt8) : setSlot (shiftUp (cstr text) pos (text.length + 1 - pos)) pos c =
      cstr (text.insertIdx pos c) := by
  funext j
  rw [setSlot, shiftUp_apply]
  rcases Nat.lt_trichotomy j pos with hlt | heq | hgt
  · rw [if_neg (Nat.ne_of_lt hlt), if_neg (by omega)]
    simp [cstr, List.getElem?_insertIdx_of_lt hlt]
  · rw [if_pos heq]
    simp [cstr, heq, List.getElem?_insertIdx_self, hpos]
  · rw [if_neg (Nat.ne_of_gt hgt)]
    have hinsert : cstr (text.insertIdx pos c) j = cstr text (j - 1) := by
      simp [cstr, List.getElem?_insertIdx_of_gt hgt]
    by_cases hin : pos < j ∧ j ≤ pos + (text.length + 1 - pos)
    · rw [if_pos hin, hinsert]
    · -- behind the text there are zeros on both sides
      have hend : ∀ k, text.length ≤ k → cstr text k = 0 := fun k hk => by
        simp [cstr, List.getElem?_eq_none hk]
      rw [if_neg hin, hinsert, hend j (by omega), hend (j - 1) (by omega)]

/-! ## Operations -/

section Operations

variable {t : TEXTBOX} {l : Line} {t' : TEXTBOX}

/-- A full line. -/
theorem addchar_full (hfull : t.lineEolPos = osTextboxLineBufferSize - 1) (c : UInt8) :
    vTextboxLinebufAddchar t c = some (t, -eio) := by
  rw [vTextboxLinebufAddchar, if_pos (by omega)]

/-- **Entering a character.** -/
theorem HoldsLine.addchar (h : HoldsLine t l) (hroom : t.lineEolPos ≠ osTextboxLineBufferSize - 1)
    (c : LineChar) :
    ∃ t', vTextboxLinebufAddchar t c = some (t', 0) ∧ HoldsLine t' (l.insert c) := by
  have hlen := h.room
  have hcursor := l.cursor_le
  rw [h.lineEolPos] at hroom
  have hstore : ∀ lineBuf, storeLine lineBuf t.lineCharPos c =
      some (setSlot lineBuf l.cursor c) := fun lineBuf => by
    rw [storeLine, h.lineCharPos, if_pos (by omega)]
    rfl
  -- the buffer before the store, and what the store makes of it
  obtain ⟨lineBuf, hshift, hline⟩ : ∃ lineBuf,
      (if t.lineCharPos < t.lineEolPos then
        shiftLine t.lineCharPos (t.lineEolPos - t.lineCharPos + 1).toNat t.lineBuf
      else some t.lineBuf) = some lineBuf ∧
      setSlot lineBuf l.cursor c = cstr (l.text.insertIdx l.cursor c) := by
    rw [h.lineCharPos, h.lineEolPos, h.lineBuf]
    by_cases hinside : (l.cursor : Int) < l.text.length
    · have hrounds : ((l.text.length : Int) - l.cursor + 1).toNat =
          l.text.length + 1 - l.cursor := by
        omega
      rw [if_pos hinside, hrounds, shiftLine_eq _ (by omega)]
      exact ⟨_, rfl, setSlot_shiftUp_cstr hcursor c⟩
    · have hend : l.cursor = l.text.length := by omega
      rw [if_neg hinside]
      refine ⟨_, rfl, ?_⟩
      rw [hend, setSlot_cstr, List.insertIdx_length_self]
  refine ⟨{ t with
    lineBuf := setSlot lineBuf l.cursor c, lineCharPos := t.lineCharPos + 1
    lineEolPos := t.lineEolPos + 1 }, ?_, hline, ?_, ?_, ?_⟩
  · rw [vTextboxLinebufAddchar, if_neg (by rw [h.lineEolPos]; omega)]
    simp only [hshift, Option.bind_some, hstore, Option.map_some]
  · show t.lineEolPos + 1 = ((l.text.insertIdx l.cursor c).length : Int)
    rw [h.lineEolPos, List.length_insertIdx_of_le_length hcursor]
    rfl
  · show t.lineCharPos + 1 = ((l.cursor + 1 : Nat) : Int)
    rw [h.lineCharPos]
    rfl
  · show ((l.text.insertIdx l.cursor c).length : Int) < osTextboxLineBufferSize
    rw [List.length_insertIdx_of_le_length hcursor]
    omega

theorem HoldsLine.clear (h : HoldsLine t l) :
    ∃ t', vTextboxLinebufClear t = some t' ∧ HoldsLine t' Line.empty := by
  have hlen := h.room
  have hrounds : t.lineEolPos.toNat = l.text.length := by
    rw [h.lineEolPos]
    rfl
  have hzero : fillSlots t.lineBuf 0 (fun _ => 0) l.text.length = cstr [] := by
    funext j
    rw [fillSlots_apply, h.lineBuf]
    by_cases hj : j < l.text.length
    · rw [if_pos ⟨Nat.zero_le _, by omega⟩]
      rfl
    · rw [if_neg (by omega)]
      simp [cstr, List.getElem?_eq_none (Nat.not_lt.mp hj)]
  rw [vTextboxLinebufClear, hrounds, zeroLine_eq _ (Int.le_of_lt hlen), Option.map_some]
  exact ⟨_, rfl, hzero, rfl, rfl, by decide⟩

/-- **One operation.** -/
theorem HoldsLine.step (h : HoldsLine t l) (op : LineOp) :
    ∃ t', lineMachine.step t op = some t' ∧ HoldsLine t' (l.step op) := by
  cases op with
  | addchar c =>
    show ∃ t', (vTextboxLinebufAddchar t c).map Prod.fst = some t' ∧ _
    by_cases hfull : t.lineEolPos = osTextboxLineBufferSize - 1
    · rw [addchar_full hfull, Line.step, if_pos (h.lineEolPos ▸ hfull)]
      exact ⟨t, rfl, h⟩
    · obtain ⟨t', ht', hholds⟩ := h.addchar hfull c
      rw [ht', Line.step, if_neg (h.lineEolPos ▸ hfull)]
      exact ⟨t', rfl, hholds⟩
  | clear => exact h.clear
  | moveTo pos =>
    show ∃ t', some (if (pos : Int) ≤ t.lineEolPos then { t with lineCharPos := pos } else t) =
      some t' ∧ _
    have hle : (pos : Int) ≤ t.lineEolPos ↔ pos ≤ l.text.length := by
      rw [h.lineEolPos, Int.ofNat_le]
    rw [Line.step]
    by_cases hpos : pos ≤ l.text.length
    · rw [if_pos (hle.mpr hpos), dif_pos hpos]
      exact ⟨_, rfl, h.lineBuf, h.lineEolPos, rfl, h.room⟩
    · rw [if_neg (mt hle.mp hpos), dif_neg hpos]
      exact ⟨t, rfl, h⟩

/-- **Any operations.** -/
theorem HoldsLine.run (h : HoldsLine t l) (ops : List LineOp) :
    ∃ t', lineMachine.run t ops = some t' ∧ HoldsLine t' (ops.foldl Line.step l) := by
  induction ops generalizing t l with
  | nil => exact ⟨t, rfl, h⟩
  | cons op ops ih =>
    obtain ⟨t', hstep, hholds⟩ := h.step op
    rw [Machine.run_cons hstep]
    exact ih hholds

/-- `t'` differs from `t` in its line only. -/
def SameBox (t t' : TEXTBOX) : Prop :=
  ∃ lineBuf lineEolPos lineCharPos, t' = { t with lineBuf, lineEolPos, lineCharPos }

theorem sameBox_clear (h : vTextboxLinebufClear t = some t') : SameBox t t' := by
  obtain ⟨lineBuf, -, rfl⟩ := Option.map_eq_some_iff.mp h
  exact ⟨lineBuf, 0, 0, rfl⟩

theorem sameBox_addchar {c : UInt8} {r : Int} (h : vTextboxLinebufAddchar t c = some (t', r)) :
    SameBox t t' := by
  rw [vTextboxLinebufAddchar] at h
  split at h
  case isTrue =>
    cases h
    exact ⟨t.lineBuf, t.lineEolPos, t.lineCharPos, rfl⟩
  case isFalse =>
    obtain ⟨shifted, -, hstore⟩ := Option.bind_eq_some_iff.mp h
    obtain ⟨lineBuf, -, hpair⟩ := Option.map_eq_some_iff.mp hstore
    cases hpair
    exact ⟨lineBuf, t.lineEolPos + 1, t.lineCharPos + 1, rfl⟩

/-- The operations leave the rest of the text box alone. -/
theorem sameBox_step {op : LineOp} (h : lineMachine.step t op = some t') : SameBox t t' := by
  cases op with
  | addchar c =>
    obtain ⟨out, hadd, rfl⟩ := Option.map_eq_some_iff.mp h
    exact sameBox_addchar hadd
  | clear => exact sameBox_clear h
  | moveTo pos =>
    cases h
    show SameBox t (if (pos : Int) ≤ t.lineEolPos then { t with lineCharPos := pos } else t)
    split
    · exact ⟨t.lineBuf, t.lineEolPos, pos, rfl⟩
    · exact ⟨t.lineBuf, t.lineEolPos, t.lineCharPos, rfl⟩

/-- The comparison sees the line and nothing else. -/
theorem HoldsLine.kstrcmp (h : HoldsLine t l) {cmd : List UInt8} (hcmd : 0 ∉ cmd) :
    ∃ r, kstrcmp t.lineBuf (cstr cmd) osTextboxLineBufferSize.toNat = some r ∧
      (r = 0 ↔ l.text = cmd) := by
  have hlen := h.room
  rw [h.lineBuf]
  exact kstrcmp_cstr l.nonzero hcmd (by omega)

end Operations

theorem holdsLine_alloc (ctl : SHTCTL) (s : SheetId)
    (xS yS xE yE bgColor charBgColor charColor : Int) :
    ∃ t, ((sheetTextboxAlloc ctl s xS yS xE yE bgColor charBgColor charColor).sheet0 s).textbox =
      some t ∧ HoldsLine t .empty := by
  rw [sheetTextboxAlloc, SHTCTL.setSheet]
  simp only [if_pos]
  exact ⟨_, rfl, rfl, rfl, rfl, by decide⟩

/-- **The line of a text box**, from its allocation on: after any operations the buffer holds the
text that was entered since the last `clear` and zeros behind it, the next character is inserted
unless the line is full, and the buffer compares as equal to a command iff that is the text. -/
theorem linebuf_run (ctl : SHTCTL) (s : SheetId)
    (xS yS xE yE bgColor charBgColor charColor : Int) (ops : List LineOp) :
    ∃ t t', ((sheetTextboxAlloc ctl s xS yS xE yE bgColor charBgColor charColor).sheet0 s).textbox =
        some t ∧
      lineMachine.run t ops = some t' ∧ HoldsLine t' (ops.foldl Line.step .empty) ∧
      (∀ c : LineChar,
        if t'.lineEolPos = osTextboxLineBufferSize - 1 then
          vTextboxLinebufAddchar t' c = some (t', -eio)
        else ∃ t'', vTextboxLinebufAddchar t' c = some (t'', 0) ∧
          HoldsLine t'' ((ops.foldl Line.step .empty).insert c)) ∧
      ∀ cmd, 0 ∉ cmd → ∃ r, kstrcmp t'.lineBuf (cstr cmd) osTextboxLineBufferSize.toNat = some r ∧
        (r = 0 ↔ (ops.foldl Line.step .empty).text = cmd) := by
  obtain ⟨t, halloc, hempty⟩ :=
    holdsLine_alloc ctl s xS yS xE yE bgColor charBgColor charColor
  obtain ⟨t', hrun, hholds⟩ := hempty.run ops
  refine ⟨t, t', halloc, hrun, hholds, fun c => ?_, fun cmd hcmd => hholds.kstrcmp hcmd⟩
  split
  · next hfull => exact addchar_full hfull c
  · next hroom => exact hholds.addchar hroom c

end UnagiOs
