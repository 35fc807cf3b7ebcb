import UnagiOs.Graphic.Kfprint
import UnagiOs.Util.Printf

/-!
# The text of a format

`text` is what a format means: the characters that it stands for, given its arguments. Every
procedure of `printf.c` hands its part of them to the output function and does nothing else
(`printLoop_eq`), so that all of them write the same text, wherever it goes.

- `snprintf_eq`: in a buffer of `count` bytes there are the first `count - 1` characters and a NUL,
  nothing else is touched, and the return value is the length of the whole text.
- `printf_kfprint`: `printf` draws on the desktop what `kfprint` draws of that text.
-/

namespace UnagiOs.Printf

open List

/-! ## The text of a conversion -/

def spaces (n : Nat) : List UInt8 := List.replicate n ' '.toUInt8

/-- The text of `_out_rev`. -/
def outRevText (buf : List UInt8) (width : Nat) (flags : Flags) : List UInt8 :=
  (if !flags.left && !flags.zeropad then spaces (width - buf.length) else []) ++ buf.reverse ++
    if flags.left then spaces (width - buf.length) else []

/-- The text of `_ntoa_format`. -/
def ntoaText (buf : List UInt8) (negative : Bool) (base prec width : Nat) (flags : Flags) :
    List UInt8 :=
  let buf := ntoaBuffer buf negative base prec width flags
  outRevText buf.1 buf.2 flags

/-- The text of `_ntoa_long` and of `_ntoa_long_long`. -/
def numberText (value : Nat) (negative : Bool) (base prec width : Nat) (flags : Flags) :
    List UInt8 :=
  let flags := if value = 0 then { flags with hash := false } else flags
  let buf := if !flags.precision || value ≠ 0 then
      digitsLong flags.uppercase base ntoaBufferSize value
    else []
  ntoaText buf negative base prec width flags

section Text

variable {D : Type} (float : FloatText D)

/-- The number that an integer conversion takes from the arguments. -/
def integerArgument (signed : Bool) (d : Directive D) : Option (Int × List (Arg D)) :=
  if d.flags.longLong then
    match d.va with
    | .longLong v :: va => some (if signed then v.toInt else v.toNat, va)
    | _ => none
  else
    match d.va with
    | .word v :: va =>
      some (if signed then (signedValue d.flags v).toInt else (unsignedValue d.flags v).toNat, va)
    | _ => none

def integerText (signed : Bool) (base : Base) (uppercase : Bool) (d : Directive D) :
    Option (List (Arg D) × List UInt8) :=
  (integerArgument signed d).map fun r =>
    (r.2, numberText r.1.natAbs (r.1 < 0) base.val d.precision d.width
      (integerFlags signed base uppercase d.flags))

/-- A text in a field of a width. -/
def field (left : Bool) (width l : Nat) (cs : List UInt8) : List UInt8 :=
  (if !left then spaces (width - l) else []) ++ cs ++ if left then spaces (width - l) else []

def stringText (p : List UInt8) (d : Directive D) : List UInt8 :=
  let l := strnlenS p (if d.precision ≠ 0 then d.precision else 2 ^ 32 - 1)
  let l := if d.flags.precision then min l d.precision else l
  field d.flags.left d.width l (if d.flags.precision then p.take d.precision else p)

def specifierText (spec : Specifier) (d : Directive D) : Option (List (Arg D) × List UInt8) :=
  match spec, d.va with
  | .integer signed base uppercase, _ => integerText signed base uppercase d
  | .fixed uppercase, .double value :: va =>
    let flags := if uppercase then { d.flags with uppercase := true } else d.flags
    some (va, float.ftoa value d.precision d.width flags)
  | .exponential adapt uppercase, .double value :: va =>
    let flags := if adapt then { d.flags with adaptExp := true } else d.flags
    let flags := if uppercase then { flags with uppercase := true } else flags
    some (va, float.etoa value d.precision d.width flags)
  | .char, .word v :: va => some (va, field d.flags.left d.width 1 [UInt8.ofNat v.toNat])
  | .string, .string p :: va => some (va, stringText p.bytes d)
  | .pointer, .word v :: va =>
    let flags := { d.flags with zeropad := true, uppercase := true }
    some (va, numberText v.toNat false 16 d.precision 8 flags)
  | .other c, va => some (va, [c])
  | _, _ => none

def directiveText (format : List UInt8) (va : List (Arg D)) :
    Option (List UInt8 × List (Arg D) × List UInt8) :=
  (parseDirective format va).bind fun d =>
    match d.format with
    | [] => none
    | c :: format => (specifierText float (specifier c) d).map fun r => (format, r.1, r.2)

def loopText : Nat → List UInt8 → List (Arg D) → Option (List UInt8)
  | _, [], _ => some []
  | 0, _ :: _, _ => none
  | n + 1, c :: format, va =>
    if c ≠ '%'.toUInt8 then (loopText n format va).map (c :: ·)
    else (directiveText float format va).bind fun r => (loopText n r.1 r.2.1).map (r.2.2 ++ ·)

/-- The text that a format stands for. -/
def text (format : CString) (va : List (Arg D)) : Option (List UInt8) :=
  loopText float format.bytes.length format.bytes va

end Text

/-! ## The buffer of a conversion -/

section Buffer

variable {buf : List UInt8} {n : Nat}

theorem length_zerosTo_le (h : buf.length ≤ ntoaBufferSize) :
    (zerosTo n buf).length ≤ ntoaBufferSize := by
  rw [zerosTo, length_append, length_replicate]
  omega

theorem length_push_le (c : UInt8) (h : buf.length ≤ ntoaBufferSize) :
    (push c buf).length ≤ ntoaBufferSize := by
  unfold push
  split
  · rw [length_append, length_singleton]
    omega
  · exact h

theorem length_digitsLong_le (uppercase : Bool) (base n value : Nat) :
    (digitsLong uppercase base n value).length ≤ n := by
  induction n generalizing value with
  | zero => exact Nat.le_refl 0
  | succ n ih =>
    rw [digitsLong, length_cons]
    split
    · exact Nat.succ_le_succ (ih _)
    · exact Nat.succ_le_succ (Nat.zero_le n)

theorem length_padZeros_le (negative : Bool) (prec width : Nat) (flags : Flags)
    (h : buf.length ≤ ntoaBufferSize) :
    (padZeros negative prec width flags buf).1.length ≤ ntoaBufferSize := by
  unfold padZeros
  split
  · exact h
  · dsimp only
    split
    · exact length_zerosTo_le (length_zerosTo_le h)
    · exact length_zerosTo_le h

/-- The letters before a number are only stored where there is room. -/
theorem length_addHash_le (base prec width : Nat) (flags : Flags)
    (h : buf.length ≤ ntoaBufferSize) :
    (addHash base prec width flags buf).length ≤ ntoaBufferSize := by
  have hdrop : ∀ b : List UInt8, b.length ≤ ntoaBufferSize →
      b.dropLast.length ≤ ntoaBufferSize := by
    intro b hb
    rw [length_dropLast]
    omega
  unfold addHash
  split
  · dsimp only
    refine length_push_le _ ?_
    have hcut : ∀ b : List UInt8, b.length ≤ ntoaBufferSize →
        (if base = 16 then push (if flags.uppercase then 'X'.toUInt8 else 'x'.toUInt8) b
          else if base = 2 then push 'b'.toUInt8 b else b).length ≤ ntoaBufferSize := by
      intro b hb
      split
      · exact length_push_le _ hb
      · split
        · exact length_push_le _ hb
        · exact hb
    refine hcut _ ?_
    split
    · split
      · exact hdrop _ (hdrop _ h)
      · exact hdrop _ h
    · exact h
  · exact h

theorem length_addSign_le (negative : Bool) (flags : Flags) (h : buf.length ≤ ntoaBufferSize) :
    (addSign negative flags buf).length ≤ ntoaBufferSize := by
  unfold addSign
  split
  · exact length_push_le _ h
  · split
    · exact length_push_le _ h
    · split
      · exact length_push_le _ h
      · exact h

/-- The buffer is large enough for what is stored in it. -/
theorem length_ntoaBuffer_le (negative : Bool) (base prec width : Nat) (flags : Flags)
    (h : buf.length ≤ ntoaBufferSize) :
    (ntoaBuffer buf negative base prec width flags).1.length ≤ ntoaBufferSize :=
  length_addSign_le _ _ (length_addHash_le _ _ _ _ (length_padZeros_le _ _ _ _ h))

end Buffer

/-! ## Through the output function -/

section Sink

variable {β D : Type} (float : FloatText D) (out : Out β) (maxlen : BitVec 32) {buf : List UInt8}
  {w : Nat}

theorem outRev_eq (hbuf : buf.length < 2 ^ 32) (width : Nat) (flags : Flags) (s : Cursor 32 β) :
    outRev out maxlen buf width flags s =
      (outRevText buf width flags).foldl (Cursor.put out maxlen) s := by
  unfold outRev outRevText
  dsimp only
  rw [foldl_append, foldl_append]
  cases hleft : flags.left with
  | false =>
    cases flags.zeropad with
    | false => rfl
    | true => rfl
  | true =>
    -- nothing is written before the number, so the place tells its length
    have hlen : buf.reverse.length < 2 ^ 32 := by rwa [length_reverse]
    have hidx := Cursor.foldl_put_idx_sub out maxlen buf.reverse s hlen
    rw [length_reverse] at hidx
    show pad out maxlen _ (width - ((buf.reverse.foldl (Cursor.put out maxlen) s).idx -
      s.idx).toNat) _ = _
    rw [hidx]
    rfl

theorem ntoaFormat_eq (hbuf : buf.length ≤ ntoaBufferSize) (negative : Bool) (base prec width : Nat)
    (flags : Flags) (s : Cursor 32 β) :
    ntoaFormat out maxlen buf negative base prec width flags s =
      (ntoaText buf negative base prec width flags).foldl (Cursor.put out maxlen) s := by
  have hlen := length_ntoaBuffer_le negative base prec width flags hbuf
  exact outRev_eq out maxlen (Nat.lt_of_le_of_lt hlen (by decide)) _ flags s

theorem length_digits_le {cond : Prop} [Decidable cond] (uppercase : Bool) (base value : Nat) :
    (if cond then digitsLong uppercase base ntoaBufferSize value else []).length ≤
      ntoaBufferSize := by
  split
  · exact length_digitsLong_le _ _ _ _
  · exact Nat.zero_le _

theorem ntoa_eq (value : BitVec w) (negative : Bool) (base prec width : Nat) (flags : Flags)
    (s : Cursor 32 β) :
    ntoa out maxlen value negative base prec width flags s =
      (numberText value.toNat negative base prec width flags).foldl (Cursor.put out maxlen) s := by
  have hzero : value = 0 ↔ value.toNat = 0 := by
    rw [← BitVec.toNat_inj]
    simp
  unfold ntoa numberText
  dsimp only
  rw [ntoaFormat_eq out maxlen (length_digits_le _ _ _)]
  simp only [hzero, ne_eq]

theorem toNat_magnitude (v : BitVec w) : (magnitude v).toNat = v.toInt.natAbs := by
  have hlt := v.isLt
  have hint := BitVec.toInt_eq_toNat_cond v
  unfold magnitude
  by_cases hpos : 0 < v.toInt
  · rw [if_pos hpos]
    split at hint <;> omega
  · rw [if_neg hpos, BitVec.toNat_sub]
    have hzero : (0 : BitVec w).toNat = 0 := by simp
    rw [hzero, Nat.add_zero]
    rcases Nat.eq_zero_or_pos v.toNat with h0 | h0
    · rw [h0, Nat.sub_zero, Nat.mod_self]
      split at hint <;> omega
    · rw [Nat.mod_eq_of_lt (by omega)]
      split at hint <;> omega

/-- The flags of an integer conversion, all at once. -/
theorem integerFlags_eq (signed : Bool) (base : Base) (uppercase : Bool) (flags : Flags) :
    integerFlags signed base uppercase flags =
      { flags with
        hash := flags.hash && base ≠ .decimal
        uppercase := uppercase || flags.uppercase
        plus := signed && flags.plus
        space := signed && flags.space
        zeropad := flags.zeropad && !flags.precision } := by
  obtain ⟨zeropad, left, plus, space, hash, upper, char, short, long, longLong, precision, adapt⟩ :=
    flags
  unfold integerFlags
  dsimp only
  cases signed <;> cases uppercase <;> cases precision <;> by_cases hbase : base = .decimal
  all_goals simp [hbase]

/-- The number of a signed conversion, or of an unsigned one. -/
theorem ntoa_argument (signed : Bool) (v v' : BitVec w) (base prec width : Nat) (flags : Flags)
    (s : Cursor 32 β) : let x : Int := if signed then v.toInt else v'.toNat
    (if signed then ntoa out maxlen (magnitude v) (v.toInt < 0) base prec width flags s
      else ntoa out maxlen v' false base prec width flags s) =
      (numberText x.natAbs (x < 0) base prec width flags).foldl (Cursor.put out maxlen) s := by
  intro x
  rw [ntoa_eq, ntoa_eq]
  cases signed with
  | true =>
    show (numberText (magnitude v).toNat _ _ _ _ _).foldl _ _ = _
    rw [toNat_magnitude]
    rfl
  | false =>
    have hnat : decide ((v'.toNat : Int) < 0) = false :=
      decide_eq_false (Int.not_lt.mpr (Int.natCast_nonneg _))
    show _ = (numberText v'.toNat (decide ((v'.toNat : Int) < 0)) _ _ _ _).foldl _ _
    rw [hnat]
    rfl

/-- An integer is put out character by character. -/
theorem printInteger_eq (signed : Bool) (base : Base) (uppercase : Bool) (d : Directive D)
    (s : Cursor 32 β) :
    printInteger out maxlen signed base uppercase d s =
      (integerText signed base uppercase d).map fun r =>
        (r.1, r.2.foldl (Cursor.put out maxlen) s) := by
  obtain ⟨flags, width, precision, format, va⟩ := d
  unfold printInteger integerText integerArgument ntoaLong ntoaLongLong
  dsimp only
  -- the argument does not depend on the flags that change
  have hlong : (integerFlags signed base uppercase flags).longLong = flags.longLong := by
    rw [integerFlags_eq]
  have hcut : ∀ v, signedValue (integerFlags signed base uppercase flags) v = signedValue flags v ∧
      unsignedValue (integerFlags signed base uppercase flags) v = unsignedValue flags v := by
    intro v
    rw [integerFlags_eq]
    exact ⟨rfl, rfl⟩
  rw [hlong]
  cases flags.longLong with
  | true =>
    rcases va with _ | ⟨v | v | p | value, va⟩
    · rfl
    · rfl
    · exact congrArg (fun s => some (va, s)) (ntoa_argument out maxlen signed v v _ _ _ _ s)
    · rfl
    · rfl
  | false =>
    rcases va with _ | ⟨v | v | p | value, va⟩
    · rfl
    · dsimp only
      rw [(hcut v).1, (hcut v).2]
      exact congrArg (fun s => some (va, s)) (ntoa_argument out maxlen signed _ _ _ _ _ _ s)
    · rfl
    · rfl
    · rfl

theorem printChar_eq (c : UInt8) (d : Directive D) (s : Cursor 32 β) :
    printChar out maxlen c d s =
      (field d.flags.left d.width 1 [c]).foldl (Cursor.put out maxlen) s := by
  unfold printChar field
  rw [foldl_append, foldl_append]
  cases d.flags.left with
  | false => rfl
  | true => rfl

theorem printString_eq (p : List UInt8) (d : Directive D) (s : Cursor 32 β) :
    printString out maxlen p d s = (stringText p d).foldl (Cursor.put out maxlen) s := by
  unfold printString stringText field
  rw [foldl_append, foldl_append]
  cases d.flags.left with
  | false => rfl
  | true => rfl

/-- So is what any specifier prints. -/
theorem printSpecifier_eq (spec : Specifier) (d : Directive D) (s : Cursor 32 β) :
    printSpecifier float out maxlen spec d s =
      (specifierText float spec d).map fun r => (r.1, r.2.foldl (Cursor.put out maxlen) s) := by
  obtain ⟨flags, width, precision, format, va⟩ := d
  cases spec with
  | integer signed base uppercase => exact printInteger_eq out maxlen signed base uppercase _ s
  | fixed uppercase => rcases va with _ | ⟨v | v | p | value, va⟩ <;> rfl
  | exponential adapt uppercase => rcases va with _ | ⟨v | v | p | value, va⟩ <;> rfl
  | char =>
    rcases va with _ | ⟨v | v | p | value, va⟩
    · rfl
    · exact congrArg (fun s => some (va, s)) (printChar_eq out maxlen _ _ s)
    · rfl
    · rfl
    · rfl
  | string =>
    rcases va with _ | ⟨v | v | p | value, va⟩
    · rfl
    · rfl
    · rfl
    · exact congrArg (fun s => some (va, s)) (printString_eq out maxlen _ _ s)
    · rfl
  | pointer =>
    rcases va with _ | ⟨v | v | p | value, va⟩
    · rfl
    · exact congrArg (fun s => some (va, s)) (ntoa_eq out maxlen _ _ _ _ _ _ s)
    · rfl
    · rfl
    · rfl
  | other c => rfl

theorem printDirective_eq (format : List UInt8) (va : List (Arg D)) (s : Cursor 32 β) :
    printDirective float out maxlen format va s =
      (directiveText float format va).map fun r =>
        (r.1, r.2.1, r.2.2.foldl (Cursor.put out maxlen) s) := by
  unfold printDirective directiveText
  cases parseDirective format va with
  | none => rfl
  | some d =>
    rw [Option.bind_some, Option.bind_some]
    cases d.format with
    | nil => rfl
    | cons c format =>
      dsimp only
      rw [printSpecifier_eq, Option.map_map, Option.map_map]
      rfl

/-- **The text goes through the output function**, and nothing else happens. -/
theorem printLoop_eq (n : Nat) (format : List UInt8) (va : List (Arg D)) (s : Cursor 32 β) :
    printLoop float out maxlen n format va s =
      (loopText float n format va).map fun cs => cs.foldl (Cursor.put out maxlen) s := by
  induction n generalizing format va s with
  | zero =>
    cases format with
    | nil => rfl
    | cons c format => rfl
  | succ n ih =>
    cases format with
    | nil => rfl
    | cons c format =>
      rw [printLoop, loopText]
      by_cases hc : c ≠ '%'.toUInt8
      · rw [if_pos hc, if_pos hc, ih, Option.map_map]
        rfl
      · rw [if_neg hc, if_neg hc, printDirective_eq]
        cases directiveText float format va with
        | none => rfl
        | some r =>
          rw [Option.map_some, Option.bind_some, Option.bind_some, ih, Option.map_map]
          refine congrArg (fun f => Option.map f _) (funext fun cs => ?_)
          exact foldl_append.symm

end Sink

/-! ## Into a buffer -/

/-- A buffer of `count` bytes at the beginning of a memory, with as much of a text as fits and a
NUL. -/
def stored (m : Nat → UInt8) (count : BitVec 32) (cs : List UInt8) : Nat → UInt8 :=
  let kept := cs.take (count.toNat - 1)
  fun i => if count ≠ 0 ∧ i ≤ kept.length then cstr kept i else m i

/-- The NUL goes behind the text, or to the end of the buffer. -/
theorem storeAt_nul (m : Nat → UInt8) (count : BitVec 32) {cs : List UInt8} {idx : BitVec 32}
    (hidx : idx.toNat = cs.length) (i : Nat) :
    (if (if idx < count then idx else count - 1).toNat < count.toNat ∧
        i = (if idx < count then idx else count - 1).toNat then 0
      else (cs.take count.toNat).getD i (m i)) = stored m count cs i := by
  unfold stored
  rcases Nat.eq_zero_or_pos count.toNat with hzero | hpos
  · have hcount : count = 0 := BitVec.eq_of_toNat_eq hzero
    rw [if_neg (by omega), if_neg fun h => h.1 hcount, hzero, take_zero]
    rfl
  · have hcount : count ≠ 0 := fun h => by simp [h] at hpos
    have hlast : (count - 1).toNat = count.toNat - 1 := by
      have hone : (1 : BitVec 32).toNat = 1 := rfl
      have hlt := count.isLt
      rw [BitVec.toNat_sub, hone]
      omega
    have hnul : (if idx < count then idx else count - 1).toNat =
        min cs.length (count.toNat - 1) := by
      split
      · next hlt =>
        rw [BitVec.lt_def, hidx] at hlt
        omega
      · next hge =>
        rw [BitVec.lt_def, hidx] at hge
        omega
    rw [hnul, length_take, Nat.min_comm (count.toNat - 1)]
    rcases Nat.lt_trichotomy i (min cs.length (count.toNat - 1)) with hlt | rfl | hgt
    · rw [if_neg (by omega), if_pos ⟨hcount, by omega⟩, cstr]
      rw [getD_eq_getElem _ _ (by rw [length_take]; omega),
        getD_eq_getElem _ _ (by rw [length_take]; omega), getElem_take,
        getElem_take]
    · rw [if_pos ⟨by omega, rfl⟩, if_pos ⟨hcount, Nat.le_refl _⟩, cstr, getD_eq_default]
      rw [length_take]
      omega
    · rw [if_neg (by omega), if_neg (by omega), getD_eq_default]
      rw [length_take]
      omega

section Functions

variable {D : Type} (float : FloatText D)

theorem vsnprintf_eq {β : Type} (out : Out β) (maxlen : BitVec 32) (buffer : β) (format : CString)
    (va : List (Arg D)) :
    vsnprintf float out maxlen buffer format va =
      (text float format va).map fun cs =>
        let s := cs.foldl (Cursor.put out maxlen) ⟨buffer, 0⟩
        (out 0 s.buffer (if s.idx < maxlen then s.idx else maxlen - 1) maxlen,
          BitVec.ofNat 32 cs.length) := by
  rw [vsnprintf, printLoop_eq, text, Option.map_map]
  refine congrArg (fun f => Option.map f _) (funext fun cs => Prod.ext rfl ?_)
  show (cs.foldl (Cursor.put out maxlen) ⟨buffer, 0⟩).idx = _
  rw [Cursor.foldl_put_idx]
  exact BitVec.zero_add _

/-- **A text in a buffer**: of any format, `snprintf` leaves as much as fits in `count` bytes with a
NUL behind it (of none, nothing at all), touches nothing else and returns the length of the whole
text. Without a buffer it only counts. -/
theorem snprintf_eq (m : Nat → UInt8) (count : BitVec 32) (format : CString) (va : List (Arg D))
    (hlen : ∀ cs ∈ text float format va, cs.length < 2 ^ 32) :
    snprintf float (some m) count format va =
        (text float format va).map (fun cs =>
          (some (stored m count cs), BitVec.ofNat 32 cs.length)) ∧
      snprintf float none count format va =
        (text float format va).map (fun cs => (none, BitVec.ofNat 32 cs.length)) := by
  unfold snprintf
  dsimp only
  rw [vsnprintf_eq, vsnprintf_eq, Option.map_map, Option.map_map]
  refine ⟨Option.map_congr fun cs hcs => ?_, rfl⟩
  have hlt := hlen cs hcs
  have hidx : (cs.foldl (Cursor.put outBuffer count) ⟨m, 0⟩).idx.toNat = cs.length := by
    rw [Cursor.foldl_put_idx]
    show (0#32 + BitVec.ofNat 32 cs.length).toNat = _
    rw [BitVec.zero_add, BitVec.toNat_ofNat, Nat.mod_eq_of_lt hlt]
  refine Prod.ext (congrArg some (funext fun i => ?_)) rfl
  refine Eq.trans ?_ (storeAt_nul m count hidx i)
  exact (storeAt_apply _ _ _ _ i).trans
    (congrArg (ite _ 0) (foldl_storeAt cs m count (Nat.le_of_lt hlt) i))

/-- No doubles. -/
def noFloat : FloatText Empty := ⟨fun _ _ _ _ => [], fun _ _ _ _ => []⟩

/-- `%05d` of 42 in four bytes: three zeros and the NUL, and the length that was needed. -/
theorem snprintf_eq_cut :
    (snprintf noFloat (some fun _ => 7) 4 ⟨[37, 48, 53, 100], by decide⟩ [.word 42]).map
      (fun r => (r.1.map fun m => (List.range 5).map m, r.2)) =
    some (some [48, 48, 48, 0, 7], 5) := by
  have htext : text noFloat ⟨[37, 48, 53, 100], by decide⟩ [.word 42] =
      some [48, 48, 48, 52, 50] := by decide
  rw [(snprintf_eq noFloat (fun _ => 7) 4 ⟨[37, 48, 53, 100], by decide⟩ [.word 42] fun cs hcs => by
    rw [htext] at hcs
    obtain rfl := Option.some.inj hcs
    decide).1, htext]
  decide

/-! ## On the desktop -/

/-- `_putchar`: `kfprint` of a string of one character. -/
def putchar (hankaku : Int → UInt8) (xsize : Int) (c : UInt8) (cv : Option Canvas) :
    Option Canvas :=
  cv.bind fun cv => videomodeKfprint hankaku xsize cv [c] 0

/-- `printf_` -/
def printf (hankaku : Int → UInt8) (xsize : Int) (cv : Canvas) (format : CString)
    (va : List (Arg D)) : Option (Canvas × BitVec 32) :=
  (fctprintf float (putchar hankaku xsize) (some cv) format va).bind fun r => r.1.map (·, r.2)

theorem foldl_outFct {γ : Type} (fct : UInt8 → γ → γ) (maxlen : BitVec 32) (cs : List UInt8)
    (s : Cursor 32 γ) :
    (cs.foldl (Cursor.put (outFct fct) maxlen) s).buffer =
      (cs.filter (· ≠ 0)).foldl (fun arg c => fct c arg) s.buffer := by
  induction cs generalizing s with
  | nil => rfl
  | cons c cs ih =>
    have hput : (s.put (outFct fct) maxlen c).buffer =
        if c ≠ 0 then fct c s.buffer else s.buffer := rfl
    rw [foldl_cons, ih, hput]
    by_cases hc : c ≠ 0
    · rw [if_pos hc, filter_cons_of_pos (by simpa using hc), foldl_cons]
    · rw [if_neg hc, filter_cons_of_neg (by simpa using hc)]

theorem foldl_putchar (hankaku : Int → UInt8) (xsize : Int) (cs : List UInt8)
    (cv : Option Canvas) :
    cs.foldl (fun cv c => putchar hankaku xsize c cv) cv =
      cv.bind fun cv => videomodeKfprint hankaku xsize cv cs 0 := by
  induction cs generalizing cv with
  | nil =>
    cases cv with
    | none => rfl
    | some cv => rfl
  | cons c cs ih =>
    rw [foldl_cons, ih]
    cases cv with
    | none => rfl
    | some cv =>
      show ([c].foldlM (putChar hankaku xsize 7) cv).bind
        (fun cv => cs.foldlM (putChar hankaku xsize 7) cv) = _
      rw [foldlM_cons]
      show (putChar hankaku xsize 7 cv c >>= pure).bind _ = _
      rw [bind_pure]
      rfl

/-- **`printf` draws its text** on the desktop, in one go or character by character. -/
theorem printf_kfprint (hankaku : Int → UInt8) (xsize : Int) (cv : Canvas) (format : CString)
    (va : List (Arg D)) :
    printf float hankaku xsize cv format va =
      (text float format va).bind fun cs =>
        (videomodeKfprint hankaku xsize cv (cs.filter (· ≠ 0)) 0).map
          (·, BitVec.ofNat 32 cs.length) := by
  unfold printf fctprintf
  rw [vsnprintf_eq]
  cases text float format va with
  | none => rfl
  | some cs =>
    rw [Option.map_some, Option.bind_some, Option.bind_some]
    show Option.map _ (cs.foldl (Cursor.put (outFct (putchar hankaku xsize)) (-1))
      ⟨some cv, 0⟩).buffer = _
    rw [foldl_outFct, foldl_putchar]
    rfl

end Functions

end UnagiOs.Printf
