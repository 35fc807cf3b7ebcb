import Mathlib.Algebra.GroupWithZero.Nat
import UnagiOs.Theory.Slots

/-!
# Bytes and little-endian numbers

A memory is a function from addresses to bytes. `leLoad` reads a number from a few bytes, the least
significant first, and `leBytes` are the bytes of a number. What the bytes of a number are loaded
from gives the number back (`leLoad_leBytes`), and a load depends on its own bytes only
(`leLoad_congr`). Stores of more than one byte are `fillSlots`.
-/

namespace UnagiOs

/-- The number in `n` bytes from `a` on. -/
def leLoad (m : Nat → UInt8) (a : Nat) : Nat → Nat
  | 0 => 0
  | n + 1 => (m a).toNat + 256 * leLoad m (a + 1) n

/-- Byte `i` of a number. -/
def leBytes (v i : Nat) : UInt8 := UInt8.ofNat (v / 256 ^ i)

variable {m m' : Nat → UInt8} {a a' v n : Nat}

theorem leLoad_lt (m : Nat → UInt8) (a n : Nat) : leLoad m a n < 256 ^ n := by
  induction n generalizing a with
  | zero => exact Nat.one_pos
  | succ n ih =>
    have hfirst := (m a).toNat_lt
    have hrest := ih (a + 1)
    rw [leLoad, Nat.pow_succ]
    omega

theorem leLoad_congr (h : ∀ i < n, m (a + i) = m' (a' + i)) : leLoad m a n = leLoad m' a' n := by
  induction n generalizing a a' with
  | zero => rfl
  | succ n ih =>
    have hrest : ∀ i < n, m (a + 1 + i) = m' (a' + 1 + i) := fun i hi => by
      have hi' := h (i + 1) (Nat.succ_lt_succ hi)
      rwa [Nat.add_comm i, ← Nat.add_assoc, ← Nat.add_assoc] at hi'
    rw [leLoad, leLoad, ih hrest, show m a = m' a' from h 0 (Nat.succ_pos n)]

/-- The bytes of a number, read again. -/
theorem leLoad_leBytes (h : ∀ i < n, m (a + i) = leBytes v i) : leLoad m a n = v % 256 ^ n := by
  induction n generalizing a v with
  | zero => simp [leLoad, Nat.mod_one]
  | succ n ih =>
    have hfirst : (m a).toNat = v % 256 := by
      rw [show m a = leBytes v 0 from h 0 (Nat.succ_pos n)]
      simp [leBytes]
    have hrest : ∀ i < n, m (a + 1 + i) = leBytes (v / 256) i := fun i hi => by
      have hi' := h (i + 1) (Nat.succ_lt_succ hi)
      rwa [Nat.add_comm i, ← Nat.add_assoc, leBytes, Nat.pow_add, Nat.pow_one,
        ← Nat.div_div_eq_div_mul] at hi'
    rw [leLoad, ih hrest, hfirst, Nat.pow_succ, Nat.mul_comm _ 256, Nat.mod_mul]

/-- A number that was stored by its bytes. -/
theorem leLoad_fillSlots (m : Nat → UInt8) (a v n : Nat) :
    leLoad (fillSlots m a (leBytes v) n) a n = v % 256 ^ n := by
  refine leLoad_leBytes fun i hi => ?_
  rw [fillSlots_apply, if_pos (by omega), Nat.add_sub_cancel_left]

/-- Bytes apart from those that were stored. -/
theorem leLoad_fillSlots_off {f : Nat → UInt8} {b k : Nat} (h : a + n ≤ b ∨ b + k ≤ a) :
    leLoad (fillSlots m b f k) a n = leLoad m a n := by
  refine leLoad_congr fun i hi => ?_
  rw [fillSlots_apply, if_neg (by omega)]

end UnagiOs
