import Mathlib.Algebra.GroupWithZero.Nat
import Mathlib.Data.Nat.Bitwise

/-!
# Fields of a machine word

Words that hold several fields are put together in two ways: with `|`, from an aligned address and
the flags below it, and field by field, by assignments to the bit-fields of a C struct. A mask
takes a field out again.

- `and_bitMask`: masking is shifting down, cutting off and shifting back.
- `and_mask_or`, `testBit_or_flags`: what was put together with `|` comes apart.
- `setBits`: assignment to a bit-field, with `testBit_setBits` for every bit of the result.
- `setField`: the same in a word of a fixed width, where `extractLsb'` reads a field.
-/

namespace UnagiOs

/-! ## An address and flags -/

section Flags

variable {a f lo len i : Nat}

/-- The mask of the bits from `lo` on, `len` of them. -/
def bitMask (lo len : Nat) : Nat := (2 ^ len - 1) <<< lo

theorem and_bitMask (e lo len : Nat) : e &&& bitMask lo len = e / 2 ^ lo % 2 ^ len * 2 ^ lo := by
  refine Nat.eq_of_testBit_eq fun i => ?_
  simp only [bitMask, Nat.testBit_and, Nat.testBit_shiftLeft, Nat.testBit_two_pow_sub_one,
    Nat.testBit_mul_two_pow, Nat.testBit_mod_two_pow, Nat.testBit_div_two_pow]
  by_cases hi : lo ≤ i
  · simp [hi, Bool.and_comm]
  · simp [hi]

/-- Flags below an aligned address. -/
theorem or_flags_eq_add (ha : 2 ^ lo ∣ a) (hf : f < 2 ^ lo) : a ||| f = a + f := by
  obtain ⟨q, rfl⟩ := ha
  exact (Nat.two_pow_add_eq_or_of_lt hf q).symm

/-- The mask takes the flags off. -/
theorem and_mask_or (ha : 2 ^ lo ∣ a) (hlt : a < 2 ^ (lo + len)) (hf : f < 2 ^ lo) :
    (a ||| f) &&& bitMask lo len = a := by
  obtain ⟨q, rfl⟩ := ha
  have hpos : 0 < 2 ^ lo := Nat.two_pow_pos lo
  rw [Nat.pow_add] at hlt
  have hq : q < 2 ^ len := Nat.lt_of_mul_lt_mul_left hlt
  rw [or_flags_eq_add (Nat.dvd_mul_right _ _) hf, and_bitMask, Nat.mul_add_div hpos,
    Nat.div_eq_of_lt hf, Nat.add_zero, Nat.mod_eq_of_lt hq, Nat.mul_comm]

/-- The flags read back. -/
theorem testBit_or_flags (ha : 2 ^ lo ∣ a) (hi : i < lo) : (a ||| f).testBit i = f.testBit i := by
  obtain ⟨q, rfl⟩ := ha
  rw [Nat.testBit_or, Nat.testBit_two_pow_mul, decide_eq_false (by omega)]
  simp

end Flags

/-! ## Bit-fields -/

section BitFields

variable {i lo len v w : Nat}

/-- Assign `v` to the field of `len` bits from `lo` on: the bits of `v` that do not fit are lost. -/
def setBits (lo len v w : Nat) : Nat :=
  w / 2 ^ (lo + len) * 2 ^ (lo + len) + (v % 2 ^ len * 2 ^ lo + w % 2 ^ lo)

/-- The bits of the field are those of the value, and the others stay. -/
theorem testBit_setBits : (setBits lo len v w).testBit i =
    if lo ≤ i ∧ i < lo + len then v.testBit (i - lo) else w.testBit i := by
  have hlow : w % 2 ^ lo < 2 ^ lo := Nat.mod_lt _ (Nat.two_pow_pos lo)
  have hfield : v % 2 ^ len * 2 ^ lo + w % 2 ^ lo < 2 ^ (lo + len) := by
    have hv : v % 2 ^ len < 2 ^ len := Nat.mod_lt _ (Nat.two_pow_pos len)
    calc v % 2 ^ len * 2 ^ lo + w % 2 ^ lo < (v % 2 ^ len + 1) * 2 ^ lo := by
          rw [Nat.add_mul, Nat.one_mul]
          exact Nat.add_lt_add_left hlow _
      _ ≤ 2 ^ len * 2 ^ lo := Nat.mul_le_mul_right _ hv
      _ = 2 ^ (lo + len) := by rw [Nat.pow_add, Nat.mul_comm]
  rw [setBits, Nat.mul_comm, Nat.testBit_two_pow_mul_add _ hfield, Nat.mul_comm (v % 2 ^ len),
    Nat.testBit_two_pow_mul_add _ hlow]
  by_cases hhigh : i < lo + len
  · by_cases hmid : lo ≤ i
    · rw [if_pos hhigh, if_neg (by omega), if_pos ⟨hmid, hhigh⟩, Nat.testBit_mod_two_pow,
        decide_eq_true (by omega), Bool.true_and]
    · rw [if_pos hhigh, if_pos (by omega), if_neg (by omega), Nat.testBit_mod_two_pow,
        decide_eq_true (by omega), Bool.true_and]
  · rw [if_neg hhigh, if_neg (by omega), Nat.testBit_div_two_pow]
    congr 1
    omega

end BitFields

section Words

variable {n lo len lo' len' v i : Nat} {w : BitVec n}

/-- Assign `v` to the field of `len` bits from `lo` on. -/
def setField (w : BitVec n) (lo len v : Nat) : BitVec n := BitVec.ofNat n (setBits lo len v w.toNat)

theorem getLsbD_setField (hi : i < n) : (setField w lo len v).getLsbD i =
    if lo ≤ i ∧ i < lo + len then v.testBit (i - lo) else w.getLsbD i := by
  rw [setField, BitVec.getLsbD_ofNat, decide_eq_true hi, Bool.true_and, testBit_setBits]
  rfl

/-- The field that was assigned. -/
theorem extract_setField (hn : lo + len ≤ n) :
    (setField w lo len v).extractLsb' lo len = BitVec.ofNat len v := by
  refine BitVec.eq_of_getLsbD_eq fun i hi => ?_
  rw [BitVec.getLsbD_extractLsb', decide_eq_true hi, Bool.true_and, getLsbD_setField (by omega),
    if_pos (by omega), BitVec.getLsbD_ofNat, decide_eq_true hi, Bool.true_and,
    Nat.add_sub_cancel_left]

/-- The other fields. -/
theorem extract_setField_off (hn : lo' + len' ≤ n) (hoff : lo' + len' ≤ lo ∨ lo + len ≤ lo') :
    (setField w lo len v).extractLsb' lo' len' = w.extractLsb' lo' len' := by
  refine BitVec.eq_of_getLsbD_eq fun i hi => ?_
  rw [BitVec.getLsbD_extractLsb', BitVec.getLsbD_extractLsb', getLsbD_setField (by omega),
    if_neg (by omega)]

end Words

end UnagiOs
