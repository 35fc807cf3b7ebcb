import Mathlib.Data.List.Basic

/-!
# The PS/2 keyboard (drivers/keyboard.c)

A scancode is turned into a key by one table and a key into a character by another one, of two, for
the keys with and without Shift. The tables are not of the same size: some keys are behind the end
of the second one, and some scancodes are behind the end of the first one. `none` stands for such a
read.

`inputGetChar_getD` says which characters come out, by the rows of keys on the keyboard.
-/

namespace UnagiOs

/-- `BREAK_MASK` -/
def breakMask : UInt8 := 0x80

/-- `atakbd_keycode`, with the values of the `KEY_` constants. -/
def atakbdKeycode : List UInt8 :=
  [0, 1, 2, 3, 4, 5, 6, 7, 8, 9, 10, 11, 12, 13, 14, 15,
    16, 17, 18, 19, 20, 21, 22, 23, 24, 25, 26, 27, 28, 29, 30, 31,
    32, 33, 34, 35, 36, 37, 38, 39, 40, 41, 42, 43, 44, 45, 46, 47,
    48, 49, 50, 51, 52, 53, 54, 55, 56, 57, 58, 59, 60, 61, 62, 63,
    64, 65, 66, 67, 68, 0, 0, 102, 103, 0, 74, 105, 0, 106, 78, 0,
    108, 0, 110, 111, 0, 0, 0, 0, 0, 0, 0, 0, 0, 0, 0, 0,
    86, 131, 138, 179, 180, 98, 55, 71, 72, 73, 75, 76, 77, 79, 80, 81,
    82, 83, 96]

/-- `keytable0`, the characters without Shift -/
def keytable0 : List UInt8 :=
  [0, 0, 49, 50, 51, 52, 53, 54, 55, 56, 57, 48, 45, 94, 0, 0,
    113, 119, 101, 114, 116, 121, 117, 105, 111, 112, 64, 91, 0, 0, 97, 115,
    100, 102, 103, 104, 106, 107, 108, 59, 58, 0, 0, 93, 122, 120, 99, 118,
    98, 110, 109, 44, 46, 47, 0, 42, 0, 32, 0, 0, 0, 0, 0, 0,
    0, 0, 0, 0, 0, 0, 0, 55, 56, 57, 45, 52, 53, 54, 43, 49,
    50, 51, 48, 46, 0, 0, 0, 0, 0, 0, 0, 0, 0, 0, 0, 0,
    0, 0, 0, 0, 0, 0, 0, 0, 0, 0, 0, 0, 0, 0, 0, 0,
    0, 0, 0, 92, 0, 0, 0, 0, 0, 0, 0, 0, 0, 92, 0, 0]

/-- `keytable1`, the characters with Shift -/
def keytable1 : List UInt8 :=
  [0, 0, 33, 34, 35, 36, 37, 38, 39, 40, 41, 126, 61, 126, 0, 0,
    81, 87, 69, 82, 84, 89, 85, 73, 79, 80, 96, 123, 0, 0, 65, 83,
    68, 70, 71, 72, 74, 75, 76, 43, 42, 0, 0, 125, 90, 88, 67, 86,
    66, 78, 77, 60, 62, 63, 0, 42, 0, 32, 0, 0, 0, 0, 0, 0,
    0, 0, 0, 0, 0, 0, 0, 55, 56, 57, 45, 52, 53, 54, 43, 49,
    50, 51, 48, 46, 0, 0, 0, 0, 0, 0, 0, 0, 0, 0, 0, 0,
    0, 0, 0, 0, 0, 0, 0, 0, 0, 0, 0, 0, 0, 0, 0, 0,
    0, 0, 0, 95, 0, 0, 0, 0, 0, 0, 0, 0, 0, 124, 0, 0]

/-- The scancode is one of a key, pressed or released. -/
def IsKeyCode (raw : UInt8) : Prop := raw ||| breakMask < 0x73 ||| breakMask

instance IsKeyCode.decidable (raw : UInt8) : Decidable (IsKeyCode raw) :=
  inferInstanceAs (Decidable (raw ||| breakMask < 0x73 ||| breakMask))

/-- `input_get_char` -/
def inputGetChar (rawscancode : UInt8) (isShift : Bool) : Option UInt8 :=
  if IsKeyCode rawscancode ∧ rawscancode > breakMask then some 0
  else
    atakbdKeycode[(rawscancode &&& ~~~breakMask).toNat]?.bind fun uscancode =>
      (if isShift then keytable1 else keytable0)[uscancode.toNat]?

/-! ## Reads outside of the tables -/

/-- A scancode behind the first table, or of a key behind the second one. -/
def OutsideTables (raw : UInt8) : Prop :=
  0x73 ≤ raw &&& ~~~breakMask ∨ 0x61 ≤ raw ∧ raw ≤ 0x64

instance OutsideTables.decidable (raw : UInt8) : Decidable (OutsideTables raw) :=
  inferInstanceAs (Decidable (_ ∨ _))

/-- A property of all scancodes. -/
theorem forall_scancode {P : UInt8 → Prop} (h : ∀ n < 256, P (UInt8.ofNat n)) (raw : UInt8) :
    P raw := by
  have hraw := h raw.toNat raw.toNat_lt
  rwa [UInt8.ofNat_toNat] at hraw

theorem inputGetChar_isSome_iff (raw : UInt8) (isShift : Bool) :
    (inputGetChar raw isShift).isSome ↔ ¬ OutsideTables raw := by
  have hall : ∀ raw shift, (inputGetChar raw shift).isSome ↔ ¬ OutsideTables raw :=
    forall_scancode (by decide +kernel)
  exact hall raw isShift

/-! ## The layout -/

/-- The keys with a character, in rows: the scancode of the first key in a row, and the characters
without and with Shift. -/
def keyRows : List (Nat × String × String) :=
  [(0x02, "1234567890-^", "!\"#$%&'()~=~"), (0x10, "qwertyuiop@[", "QWERTYUIOP`\x7b"),
    (0x1e, "asdfghjkl;:", "ASDFGHJKL+*"), (0x2b, "]zxcvbnm,./", "\x7dZXCVBNM<>?"),
    (0x37, "*", "*"), (0x39, " ", " "), (0x4a, "-", "-"), (0x4e, "+", "+"),
    (0x66, "*789456", "*789456"), (0x6d, "1230.", "1230.")]

/-- The character of the key with a scancode, 0 if it has none. -/
def keyChar (code : UInt8) (shift : Bool) : UInt8 :=
  let char := keyRows.findSome? fun row =>
    if code.toNat < row.1 then none
    else (if shift then row.2.2 else row.2.1).toList[code.toNat - row.1]?
  UInt8.ofNat (char.elim 0 Char.toNat)

/-- What `input_get_char` answers, where it does. The release of a key has no character. -/
theorem inputGetChar_getD (raw : UInt8) (isShift : Bool) :
    (inputGetChar raw isShift).getD 0 = keyChar raw isShift := by
  have hall : ∀ raw shift, (inputGetChar raw shift).getD 0 = keyChar raw shift :=
    forall_scancode (by decide +kernel)
  exact hall raw isShift

end UnagiOs
