import UnagiOs.Theory.BitField

/-!
# Rounding up to a multiple

`roundUp n a` is the least multiple of `a` from `n` on. For a power of two the sum `n + a - 1` with
its low bits masked off is the same, in words too, as long as the sum does not wrap
(`toNat_and_not_mask`).
-/

namespace UnagiOs

section Multiples

variable {n a q : Nat}

/-- The least multiple of `a` from `n` on. -/
def roundUp (n a : Nat) : Nat := (n + a - 1) / a * a

theorem dvd_roundUp (n a : Nat) : a ∣ roundUp n a := Nat.dvd_mul_left a _

theorem le_roundUp (n : Nat) (ha : 0 < a) : n ≤ roundUp n a := by
  have hdiv := Nat.div_add_mod (n + a - 1) a
  have hmod := Nat.mod_lt (n + a - 1) ha
  rw [roundUp, Nat.mul_comm]
  omega

theorem roundUp_lt (n : Nat) (ha : 0 < a) : roundUp n a < n + a := by
  have hle := Nat.div_mul_le_self (n + a - 1) a
  rw [roundUp]
  omega

theorem roundUp_le (ha : 0 < a) (hn : n ≤ q) (hq : a ∣ q) : roundUp n a ≤ q := by
  obtain ⟨k, rfl⟩ := hq
  rw [roundUp, Nat.mul_comm a k]
  refine Nat.mul_le_mul_right a (Nat.lt_succ_iff.mp ?_)
  rw [Nat.div_lt_iff_lt_mul ha, Nat.succ_mul, Nat.mul_comm k a]
  omega

theorem roundUp_of_dvd (ha : 0 < a) (h : a ∣ n) : roundUp n a = n :=
  Nat.le_antisymm (roundUp_le ha (Nat.le_refl n) h) (le_roundUp n ha)

end Multiples

/-! ## Masks -/

section Masks

variable {w k : Nat}

theorem toNat_not_mask (hk : k ≤ w) :
    (~~~ BitVec.ofNat w (2 ^ k - 1)).toNat = bitMask k (w - k) := by
  have hpow : 2 ^ k ≤ 2 ^ w := Nat.pow_le_pow_right (by decide) hk
  have hpos : 0 < 2 ^ k := Nat.two_pow_pos k
  have hsplit : 2 ^ (w - k) * 2 ^ k = 2 ^ w := by rw [← Nat.pow_add, Nat.sub_add_cancel hk]
  rw [BitVec.toNat_not, BitVec.toNat_ofNat, Nat.mod_eq_of_lt (by omega), bitMask,
    Nat.shiftLeft_eq, Nat.sub_mul, hsplit]
  omega

/-- Masking the low bits off rounds down. -/
theorem toNat_and_not_mask (v : BitVec w) (hk : k ≤ w) :
    (v &&& ~~~ BitVec.ofNat w (2 ^ k - 1)).toNat = v.toNat / 2 ^ k * 2 ^ k := by
  have hlt : v.toNat / 2 ^ k < 2 ^ (w - k) := by
    rw [Nat.div_lt_iff_lt_mul (Nat.two_pow_pos k), ← Nat.pow_add, Nat.sub_add_cancel hk]
    exact v.isLt
  rw [BitVec.toNat_and, toNat_not_mask hk, and_bitMask, Nat.mod_eq_of_lt hlt]

end Masks

end UnagiOs
