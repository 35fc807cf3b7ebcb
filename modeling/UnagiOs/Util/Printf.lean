import UnagiOs.Theory.Sink
import UnagiOs.Util.Kutil

/-!
# Formatted output (util/printf.c)

`_vsnprintf` goes through the format once and writes as it goes, through an output function that
it is given: into a buffer, to the desktop, to a function of the caller, or nowhere. A directive is
`%[flags][width][.precision][length]specifier`, and its arguments are taken from the argument list
in the order in which it mentions them.

The kernel is compiled for i386: an `int`, a `long`, a `size_t` and a pointer take one word of the
argument list each. `none` stands for what has no meaning: an argument that is missing or of another
type, and a read behind the end of the format. The text of a floating point number is a parameter;
all that matters about it here is that it goes through the output function like any other text.
-/

namespace UnagiOs.Printf

/-- The flags of a directive, bit by bit. -/
structure Flags where
  zeropad : Bool := false
  left : Bool := false
  plus : Bool := false
  space : Bool := false
  hash : Bool := false
  uppercase : Bool := false
  char : Bool := false
  short : Bool := false
  long : Bool := false
  longLong : Bool := false
  precision : Bool := false
  adaptExp : Bool := false
  deriving DecidableEq, Repr

/-- A string in memory, up to its NUL. -/
structure CString where
  bytes : List UInt8
  noNul : 0 ∉ bytes
  deriving DecidableEq, Repr

/-- An argument; `D` are the doubles. -/
inductive Arg (D : Type) where
  /-- one word: `int`, `long`, `size_t`, a pointer -/
  | word (v : BitVec 32)
  | longLong (v : BitVec 64)
  /-- a pointer to a string -/
  | string (p : CString)
  | double (value : D)
  deriving DecidableEq, Repr

/-- The text of a double, by its precision, its width and its flags. -/
structure FloatText (D : Type) where
  /-- `_ftoa` -/
  ftoa : D → Nat → Nat → Flags → List UInt8
  /-- `_etoa` -/
  etoa : D → Nat → Nat → Flags → List UInt8

/-- The type of an output function; `β` is what its buffer argument points to. -/
abbrev Out (β : Type) := UInt8 → β → BitVec 32 → BitVec 32 → β

/-- `PRINTF_NTOA_BUFFER_SIZE` -/
def ntoaBufferSize : Nat := 32

/-! ## Strings and numbers in the format -/

/-- `_strnlen_s` -/
def strnlenS : List UInt8 → Nat → Nat
  | [], _ => 0
  | _ :: _, 0 => 0
  | _ :: s, maxsize + 1 => strnlenS s maxsize + 1

/-- `_atoi`: the number, which wraps, and what follows it. -/
def atoi : List UInt8 → Nat → Nat × List UInt8
  | [], i => (i, [])
  | c :: str, i => if isDigit c then atoi str (u32 (i * 10 + (c.toNat - 48))) else (i, c :: str)

/-! ## The output of a conversion -/

section Output

variable {β : Type} (out : Out β) (maxlen : BitVec 32)

/-- Several times the same character. -/
def pad (c : UInt8) (n : Nat) (s : Cursor 32 β) : Cursor 32 β :=
  (List.replicate n c).foldl (Cursor.put out maxlen) s

/-- `_out_rev`: `buf` holds the characters in reverse. -/
def outRev (buf : List UInt8) (width : Nat) (flags : Flags) (s : Cursor 32 β) : Cursor 32 β :=
  let startIdx := s.idx
  let s := if !flags.left && !flags.zeropad then pad out maxlen ' '.toUInt8 (width - buf.length) s
    else s
  let s := buf.reverse.foldl (Cursor.put out maxlen) s
  -- while (idx - start_idx < width)
  if flags.left then pad out maxlen ' '.toUInt8 (width - (s.idx - startIdx).toNat) s else s

end Output

/-- `while ((len < n) && (len < PRINTF_NTOA_BUFFER_SIZE)) buf[len++] = '0';` -/
def zerosTo (n : Nat) (buf : List UInt8) : List UInt8 :=
  buf ++ List.replicate (min n ntoaBufferSize - buf.length) '0'.toUInt8

/-- `if (len < PRINTF_NTOA_BUFFER_SIZE) buf[len++] = c;` -/
def push (c : UInt8) (buf : List UInt8) : List UInt8 :=
  if buf.length < ntoaBufferSize then buf ++ [c] else buf

/-- The part of `_ntoa_format` that pads with zeros, with the width that it leaves. -/
def padZeros (negative : Bool) (prec width : Nat) (flags : Flags) (buf : List UInt8) :
    List UInt8 × Nat :=
  if flags.left then (buf, width)
  else
    let width := if width ≠ 0 && flags.zeropad && (negative || flags.plus || flags.space) then
      width - 1 else width
    let buf := zerosTo prec buf
    (if flags.zeropad then zerosTo width buf else buf, width)

/-- The part of `_ntoa_format` that handles hash. -/
def addHash (base prec width : Nat) (flags : Flags) (buf : List UInt8) : List UInt8 :=
  if flags.hash then
    let buf := if !flags.precision && buf ≠ [] && (buf.length == prec || buf.length == width) then
        let buf := buf.dropLast
        if buf ≠ [] && base == 16 then buf.dropLast else buf
      else buf
    let buf := if base = 16 then push (if flags.uppercase then 'X'.toUInt8 else 'x'.toUInt8) buf
      else if base = 2 then push 'b'.toUInt8 buf
      else buf
    push '0'.toUInt8 buf
  else buf

/-- The part of `_ntoa_format` that adds the sign. -/
def addSign (negative : Bool) (flags : Flags) (buf : List UInt8) : List UInt8 :=
  if negative then push '-'.toUInt8 buf
  else if flags.plus then push '+'.toUInt8 buf
  else if flags.space then push ' '.toUInt8 buf
  else buf

/-- `buf` of `_ntoa_format` before it is written, with the width. -/
def ntoaBuffer (buf : List UInt8) (negative : Bool) (base prec width : Nat) (flags : Flags) :
    List UInt8 × Nat :=
  let padded := padZeros negative prec width flags buf
  (addSign negative flags (addHash base prec padded.2 flags padded.1), padded.2)

/-- A digit as a character. -/
def digitChar (uppercase : Bool) (digit : Nat) : UInt8 :=
  if digit < 10 then '0'.toUInt8 + UInt8.ofNat digit
  else (if uppercase then 'A'.toUInt8 else 'a'.toUInt8) + UInt8.ofNat digit - 10

/-- The loop of `_ntoa_long` and of `_ntoa_long_long`, with room for `n` characters in `buf`. -/
def digitsLong (uppercase : Bool) (base : Nat) : Nat → Nat → List UInt8
  | 0, _ => []
  | n + 1, value =>
    digitChar uppercase (value % base) ::
      if value / base ≠ 0 then digitsLong uppercase base n (value / base) else []

section Output

variable {β : Type} (out : Out β) (maxlen : BitVec 32)

/-- `_ntoa_format` -/
def ntoaFormat (buf : List UInt8) (negative : Bool) (base prec width : Nat) (flags : Flags)
    (s : Cursor 32 β) : Cursor 32 β :=
  let buf := ntoaBuffer buf negative base prec width flags
  outRev out maxlen buf.1 buf.2 flags s

/-- What `_ntoa_long` does with a `long`, and `_ntoa_long_long` with a `long long`. -/
def ntoa {w : Nat} (value : BitVec w) (negative : Bool) (base prec width : Nat) (flags : Flags)
    (s : Cursor 32 β) : Cursor 32 β :=
  let flags := if value = 0 then { flags with hash := false } else flags
  let buf := if !flags.precision || value ≠ 0 then
      digitsLong flags.uppercase base ntoaBufferSize value.toNat
    else []
  ntoaFormat out maxlen buf negative base prec width flags s

/-- `_ntoa_long` -/
def ntoaLong (value : BitVec 32) := ntoa out maxlen value

/-- `_ntoa_long_long` -/
def ntoaLongLong (value : BitVec 64) := ntoa out maxlen value

end Output

/-! ## The parts of a directive -/

/-- The loop over the flags. -/
def parseFlags : List UInt8 → Flags → Flags × List UInt8
  | [], flags => (flags, [])
  | c :: format, flags =>
    if c = '0'.toUInt8 then parseFlags format { flags with zeropad := true }
    else if c = '-'.toUInt8 then parseFlags format { flags with left := true }
    else if c = '+'.toUInt8 then parseFlags format { flags with plus := true }
    else if c = ' '.toUInt8 then parseFlags format { flags with space := true }
    else if c = '#'.toUInt8 then parseFlags format { flags with hash := true }
    else (flags, c :: format)

/-- What the parser of a directive has found, with the rest of the format and of the arguments. -/
structure Directive (D : Type) where
  flags : Flags
  width : Nat
  precision : Nat
  format : List UInt8
  va : List (Arg D)
  deriving DecidableEq, Repr

section Parse

variable {D : Type}

/-- The width field. -/
def parseWidth (d : Directive D) : Option (Directive D) :=
  match d.format with
  | [] => some d
  | c :: format =>
    if isDigit c then
      some { d with width := (atoi d.format 0).1, format := (atoi d.format 0).2 }
    else if c = '*'.toUInt8 then
      match d.va with
      | .word w :: va =>
        if w.toInt < 0 then
          some { d with flags := { d.flags with left := true }, width := (-w).toNat, format, va }
        else some { d with width := w.toNat, format, va }
      | _ => none
    else some d

/-- The precision field. -/
def parsePrecision (d : Directive D) : Option (Directive D) :=
  match d.format with
  | [] => some d
  | c :: format =>
    if c = '.'.toUInt8 then
      let d := { d with flags := { d.flags with precision := true }, format }
      match format with
      | [] => some d
      | c :: format =>
        if isDigit c then
          some { d with precision := (atoi d.format 0).1, format := (atoi d.format 0).2 }
        else if c = '*'.toUInt8 then
          match d.va with
          | .word prec :: va =>
            some { d with precision := if 0 < prec.toInt then prec.toNat else 0, format, va }
          | _ => none
        else some d
    else some d

/-- The length field. A `ptrdiff_t` and a `size_t` are a `long`, an `intmax_t` is a `long long`. -/
def parseLength (d : Directive D) : Directive D :=
  match d.format with
  | [] => d
  | c :: format =>
    if c = 'l'.toUInt8 then
      let d := { d with flags := { d.flags with long := true }, format }
      match format with
      | [] => d
      | c :: format =>
        if c = 'l'.toUInt8 then { d with flags := { d.flags with longLong := true }, format } else d
    else if c = 'h'.toUInt8 then
      let d := { d with flags := { d.flags with short := true }, format }
      match format with
      | [] => d
      | c :: format =>
        if c = 'h'.toUInt8 then { d with flags := { d.flags with char := true }, format } else d
    else if c = 't'.toUInt8 then { d with flags := { d.flags with long := true }, format }
    else if c = 'j'.toUInt8 then { d with flags := { d.flags with longLong := true }, format }
    else if c = 'z'.toUInt8 then { d with flags := { d.flags with long := true }, format }
    else d

/-- Everything between the `%` and the specifier. -/
def parseDirective (format : List UInt8) (va : List (Arg D)) : Option (Directive D) :=
  let flags := parseFlags format {}
  (parseWidth ⟨flags.1, 0, 0, flags.2, va⟩).bind fun d =>
    (parsePrecision d).map fun d => parseLength d

end Parse

/-- The bases that the source sets. -/
inductive Base where
  | binary
  | octal
  | decimal
  | hexadecimal
  deriving DecidableEq, Repr

def Base.val : Base → Nat
  | binary => 2
  | octal => 8
  | decimal => 10
  | hexadecimal => 16

/-- The cases of the switch over the specifier. -/
inductive Specifier where
  /-- `d`, `i`, `u`, `x`, `X`, `o`, `b` -/
  | integer (signed : Bool) (base : Base) (uppercase : Bool)
  /-- `f`, `F` -/
  | fixed (uppercase : Bool)
  /-- `e`, `E`, `g`, `G` -/
  | exponential (adapt uppercase : Bool)
  | char
  | string
  | pointer
  /-- `%` and what is no specifier -/
  | other (c : UInt8)
  deriving DecidableEq, Repr

def specifier (c : UInt8) : Specifier :=
  if c = 'd'.toUInt8 ∨ c = 'i'.toUInt8 then .integer true .decimal false
  else if c = 'u'.toUInt8 then .integer false .decimal false
  else if c = 'x'.toUInt8 then .integer false .hexadecimal false
  else if c = 'X'.toUInt8 then .integer false .hexadecimal true
  else if c = 'o'.toUInt8 then .integer false .octal false
  else if c = 'b'.toUInt8 then .integer false .binary false
  else if c = 'f'.toUInt8 then .fixed false
  else if c = 'F'.toUInt8 then .fixed true
  else if c = 'e'.toUInt8 then .exponential false false
  else if c = 'E'.toUInt8 then .exponential false true
  else if c = 'g'.toUInt8 then .exponential true false
  else if c = 'G'.toUInt8 then .exponential true true
  else if c = 'c'.toUInt8 then .char
  else if c = 's'.toUInt8 then .string
  else if c = 'p'.toUInt8 then .pointer
  else .other c

/-- The flags of an integer conversion. -/
def integerFlags (signed : Bool) (base : Base) (uppercase : Bool) (flags : Flags) : Flags :=
  -- no hash for dec format
  let flags := if base = .decimal then { flags with hash := false } else flags
  let flags := if uppercase then { flags with uppercase := true } else flags
  -- no plus or space flag for u, x, X, o, b
  let flags := if signed then flags else { flags with plus := false, space := false }
  -- ignore '0' flag when precision is given
  if flags.precision then { flags with zeropad := false } else flags

/-- The argument of a signed conversion, cut to its type. -/
def signedValue (flags : Flags) (v : BitVec 32) : BitVec 32 :=
  if flags.long then v
  else if flags.char then (v.setWidth 8).signExtend 32
  else if flags.short then (v.setWidth 16).signExtend 32
  else v

/-- The argument of an unsigned conversion, cut to its type. -/
def unsignedValue (flags : Flags) (v : BitVec 32) : BitVec 32 :=
  if flags.long then v
  else if flags.char then (v.setWidth 8).setWidth 32
  else if flags.short then (v.setWidth 16).setWidth 32
  else v

/-- `value > 0 ? value : 0 - value` -/
def magnitude {w : Nat} (value : BitVec w) : BitVec w :=
  if 0 < value.toInt then value else 0 - value

section Print

variable {β D : Type} (float : FloatText D) (out : Out β) (maxlen : BitVec 32)

/-- An integer conversion. -/
def printInteger (signed : Bool) (base : Base) (uppercase : Bool) (d : Directive D)
    (s : Cursor 32 β) : Option (List (Arg D) × Cursor 32 β) :=
  let flags := integerFlags signed base uppercase d.flags
  if flags.longLong then
    match d.va with
    | .longLong v :: va =>
      some (va, if signed then
          ntoaLongLong out maxlen (magnitude v) (v.toInt < 0) base.val d.precision d.width flags s
        else ntoaLongLong out maxlen v false base.val d.precision d.width flags s)
    | _ => none
  else
    match d.va with
    | .word v :: va =>
      some (va, if signed then
          let value := signedValue flags v
          ntoaLong out maxlen (magnitude value) (value.toInt < 0) base.val d.precision d.width flags
            s
        else
          ntoaLong out maxlen (unsignedValue flags v) false base.val d.precision d.width flags s)
    | _ => none

/-- The conversion `c`. -/
def printChar (c : UInt8) (d : Directive D) (s : Cursor 32 β) : Cursor 32 β :=
  let s := if !d.flags.left then pad out maxlen ' '.toUInt8 (d.width - 1) s else s
  let s := s.put out maxlen c
  if d.flags.left then pad out maxlen ' '.toUInt8 (d.width - 1) s else s

/-- The conversion `s`. -/
def printString (p : List UInt8) (d : Directive D) (s : Cursor 32 β) : Cursor 32 β :=
  let l := strnlenS p (if d.precision ≠ 0 then d.precision else 2 ^ 32 - 1)
  let l := if d.flags.precision then min l d.precision else l
  let s := if !d.flags.left then pad out maxlen ' '.toUInt8 (d.width - l) s else s
  let s := (if d.flags.precision then p.take d.precision else p).foldl (Cursor.put out maxlen) s
  if d.flags.left then pad out maxlen ' '.toUInt8 (d.width - l) s else s

/-- The switch over the specifier. -/
def printSpecifier (spec : Specifier) (d : Directive D) (s : Cursor 32 β) :
    Option (List (Arg D) × Cursor 32 β) :=
  match spec, d.va with
  | .integer signed base uppercase, _ => printInteger out maxlen signed base uppercase d s
  | .fixed uppercase, .double value :: va =>
    let flags := if uppercase then { d.flags with uppercase := true } else d.flags
    some (va, (float.ftoa value d.precision d.width flags).foldl (Cursor.put out maxlen) s)
  | .exponential adapt uppercase, .double value :: va =>
    let flags := if adapt then { d.flags with adaptExp := true } else d.flags
    let flags := if uppercase then { flags with uppercase := true } else flags
    some (va, (float.etoa value d.precision d.width flags).foldl (Cursor.put out maxlen) s)
  | .char, .word v :: va => some (va, printChar out maxlen (UInt8.ofNat v.toNat) d s)
  | .string, .string p :: va => some (va, printString out maxlen p.bytes d s)
  | .pointer, .word v :: va =>
    let flags := { d.flags with zeropad := true, uppercase := true }
    some (va, ntoaLong out maxlen v false 16 d.precision 8 flags s)
  | .other c, va => some (va, s.put out maxlen c)
  | _, _ => none

/-- A directive, behind its `%`. At the end of the format the specifier is the NUL: it is written,
and the loop goes on behind it. -/
def printDirective (format : List UInt8) (va : List (Arg D)) (s : Cursor 32 β) :
    Option (List UInt8 × List (Arg D) × Cursor 32 β) :=
  (parseDirective format va).bind fun d =>
    match d.format with
    | [] => none
    | c :: format =>
      (printSpecifier float out maxlen (specifier c) d s).map fun r => (format, r.1, r.2)

/-- The loop over the format. Every round takes a character, so there are no more than `n` of
them. -/
def printLoop : Nat → List UInt8 → List (Arg D) → Cursor 32 β → Option (Cursor 32 β)
  | _, [], _, s => some s
  | 0, _ :: _, _, _ => none
  | n + 1, c :: format, va, s =>
    if c ≠ '%'.toUInt8 then printLoop n format va (s.put out maxlen c)
    else (printDirective float out maxlen format va s).bind fun r => printLoop n r.1 r.2.1 r.2.2

/-- `_vsnprintf`, for a buffer that is not null: what is left in it, and the length. -/
def vsnprintf (buffer : β) (format : CString) (va : List (Arg D)) : Option (β × BitVec 32) :=
  (printLoop float out maxlen format.bytes.length format.bytes va ⟨buffer, 0⟩).map fun s =>
    (out 0 s.buffer (if s.idx < maxlen then s.idx else maxlen - 1) maxlen, s.idx)

end Print

/-! ## The functions of the header -/

/-- `_out_null` -/
def outNull : Out Unit := fun _ buffer _ _ => buffer

/-- `_out_buffer` -/
def outBuffer : Out (Nat → UInt8) := storeAt

/-- `_out_char` and `_out_fct`: `fct` is called for each character but NUL. -/
def outFct {γ : Type} (fct : UInt8 → γ → γ) : Out γ :=
  fun c arg _ _ => if c ≠ 0 then fct c arg else arg

variable {D : Type} (float : FloatText D)

/-- `snprintf_` and `vsnprintf_`; a null `buffer` is `none`. -/
def snprintf (buffer : Option (Nat → UInt8)) (count : BitVec 32) (format : CString)
    (va : List (Arg D)) : Option (Option (Nat → UInt8) × BitVec 32) :=
  match buffer with
  | none => (vsnprintf float outNull count () format va).map fun r => (none, r.2)
  | some buffer => (vsnprintf float outBuffer count buffer format va).map fun r => (some r.1, r.2)

/-- `sprintf_` -/
def sprintf (buffer : Option (Nat → UInt8)) (format : CString) (va : List (Arg D)) :
    Option (Option (Nat → UInt8) × BitVec 32) :=
  snprintf float buffer (-1) format va

/-- `fctprintf` -/
def fctprintf {γ : Type} (fct : UInt8 → γ → γ) (arg : γ) (format : CString) (va : List (Arg D)) :
    Option (γ × BitVec 32) :=
  vsnprintf float (outFct fct) (-1) arg format va

end UnagiOs.Printf
