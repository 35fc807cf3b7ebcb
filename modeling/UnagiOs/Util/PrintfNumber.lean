import Mathlib.Data.Nat.Digits.Lemmas
import UnagiOs.Util.PrintfTypes

/-!
# The text of an integer

What `_ntoa_format` makes of a number, against what a conversion is to give: the sign, the digits,
zeros up to the precision, and a field of the width.

- `specifierText_standard`: without `#`, and as long as everything fits into the buffer of 32
  characters, every integer conversion gives the standard field. The precision is lost when the
  field is adjusted to the left, so there it has to be no larger than the number of digits.
-/

namespace UnagiOs.Printf

open List

variable {base n value : Nat} {flags : Flags}

/-! ## Digits -/

def zeros (n : Nat) : List UInt8 := List.replicate n '0'.toUInt8

/-- A digit below 16, as it is written. -/
def standardDigit (uppercase : Bool) (digit : Nat) : UInt8 :=
  (if uppercase then (Nat.digitChar digit).toUpper else Nat.digitChar digit).toUInt8

/-- `_ntoa_long` writes its digits by arithmetic on characters. -/
theorem digitChar_eq (uppercase : Bool) {digit : Nat} (h : digit < 16) :
    digitChar uppercase digit = standardDigit uppercase digit := by
  have hall : ∀ uppercase, ∀ digit < 16,
      digitChar uppercase digit = standardDigit uppercase digit := by
    decide
  exact hall uppercase digit h

/-- The digits of a number. Of zero there is one, unless there is a precision. -/
def shownDigits (value base : Nat) (flags : Flags) : List UInt8 :=
  if value = 0 then if flags.precision then [] else ['0'.toUInt8]
  else ((Nat.digits base value).map (standardDigit flags.uppercase)).reverse

/-- The loop stores the digits from the lowest on, and one for zero. -/
theorem digitsLong_eq (uppercase : Bool) (hbase : 1 < base) (hn : 0 < n) (h : value < base ^ n) :
    digitsLong uppercase base n value =
      (if value = 0 then [0] else Nat.digits base value).map (digitChar uppercase) := by
  induction n generalizing value with
  | zero => exact absurd hn (Nat.lt_irrefl 0)
  | succ n ih =>
    rw [digitsLong]
    rcases Nat.eq_zero_or_pos value with rfl | hpos
    · rw [Nat.zero_mod, Nat.zero_div, if_neg (not_not.mpr rfl), if_pos rfl]
      rfl
    · rw [if_neg hpos.ne', Nat.digits_def' hbase hpos, map_cons]
      by_cases hdiv : value / base = 0
      · rw [if_neg (not_not.mpr hdiv), hdiv, Nat.digits_zero]
        rfl
      · have hlt : value / base < base ^ n :=
          Nat.div_lt_of_lt_mul (by rwa [← Nat.pow_succ'])
        have hn' : 0 < n := by
          refine Nat.pos_of_ne_zero fun h0 => hdiv ?_
          rw [h0, Nat.pow_zero] at hlt
          exact Nat.lt_one_iff.mp hlt
        rw [if_pos hdiv, ih hn' hlt, if_neg hdiv]

/-- `buf` before it is padded. -/
theorem shownDigits_reverse (hbase : 1 < base) (hbase' : base ≤ 16)
    (h : value < base ^ ntoaBufferSize) (flags : Flags) :
    (if !flags.precision || value ≠ 0 then
      digitsLong flags.uppercase base ntoaBufferSize value else []) =
      (shownDigits value base flags).reverse := by
  rw [digitsLong_eq flags.uppercase hbase (by decide) h, shownDigits]
  rcases Nat.eq_zero_or_pos value with rfl | hpos
  · cases flags.precision with
    | false => rfl
    | true => rfl
  · have hcond : (!flags.precision || decide (value ≠ 0)) = true := by
      rw [decide_eq_true hpos.ne', Bool.or_true]
    rw [if_pos hcond, if_neg hpos.ne', if_neg hpos.ne', reverse_reverse]
    exact map_congr_left fun digit hdigit => digitChar_eq _
      (Nat.lt_of_lt_of_le (Nat.digits_lt_base hbase hdigit) hbase')

theorem length_shownDigits_le {value base n : Nat} (hbase : 1 < base) (hn : 0 < n)
    (h : value < base ^ n) (flags : Flags) : (shownDigits value base flags).length ≤ n := by
  unfold shownDigits
  split
  · split
    · exact Nat.zero_le n
    · exact hn
  · rw [length_reverse, length_map]
    exact (Nat.digits_length_le_iff hbase value).mpr h

/-! ## The standard field -/

def signText (negative : Bool) (flags : Flags) : List UInt8 :=
  if negative then ['-'.toUInt8]
  else if flags.plus then ['+'.toUInt8]
  else if flags.space then [' '.toUInt8]
  else []

/-- A number in a field: at least `prec` digits, and at least `width` characters. -/
def standardNumber (value : Nat) (negative : Bool) (base prec width : Nat) (flags : Flags) :
    List UInt8 :=
  let digits := shownDigits value base flags
  let body := zeros (prec - digits.length) ++ digits
  let sign := signText negative flags
  let room := width - (sign.length + body.length)
  if flags.left then sign ++ body ++ spaces room
  else if flags.zeropad then sign ++ zeros room ++ body
  else spaces room ++ sign ++ body

theorem addSign_eq {buf : List UInt8} {negative : Bool}
    (h : buf.length + (signText negative flags).length ≤ ntoaBufferSize) :
    addSign negative flags buf = buf ++ signText negative flags := by
  have hpush : ∀ c : UInt8, buf.length + 1 ≤ ntoaBufferSize → push c buf = buf ++ [c] :=
    fun c hc => if_pos hc
  unfold addSign signText at *
  split at h
  · next hneg => rw [if_pos hneg, if_pos hneg, hpush _ h]
  · next hneg =>
    rw [if_neg hneg, if_neg hneg]
    split at h
    · next hplus => rw [if_pos hplus, if_pos hplus, hpush _ h]
    · next hplus =>
      rw [if_neg hplus, if_neg hplus]
      split at h
      · next hspace => rw [if_pos hspace, if_pos hspace, hpush _ h]
      · next hspace => rw [if_neg hspace, if_neg hspace, append_nil]

/-- The width that is left for the zeros. -/
theorem width_sub_sign (width : Nat) (negative : Bool) (flags : Flags)
    (hzero : flags.zeropad = true) :
    (if width ≠ 0 && flags.zeropad && (negative || flags.plus || flags.space) then width - 1
      else width) = width - (signText negative flags).length := by
  have hcond : ∀ b : Bool,
      (if width ≠ 0 && true && b then width - 1 else width) = width - if b then 1 else 0 := by
    intro b
    cases b with
    | false => rw [Bool.and_false]; rfl
    | true =>
      rcases Nat.eq_zero_or_pos width with rfl | hpos
      · rfl
      · rw [decide_eq_true hpos.ne']; rfl
  rw [hzero, hcond]
  congr 1
  unfold signText
  cases negative with
  | true => rfl
  | false =>
    cases flags.plus with
    | true => rfl
    | false =>
      cases flags.space with
      | true => rfl
      | false => rfl

theorem zerosTo_eq (hn : n ≤ ntoaBufferSize) (buf : List UInt8) :
    zerosTo n buf = buf ++ zeros (n - buf.length) := by
  rw [zerosTo, Nat.min_eq_left hn, zeros]

theorem reverse_zeros (n : Nat) : (zeros n).reverse = zeros n := reverse_replicate

theorem reverse_signText (negative : Bool) (flags : Flags) :
    (signText negative flags).reverse = signText negative flags := by
  unfold signText
  repeat' split
  all_goals rfl

theorem length_signText_le (negative : Bool) (flags : Flags) :
    (signText negative flags).length ≤ 1 := by
  unfold signText
  repeat' split
  all_goals decide

theorem addHash_eq (h : flags.hash = false) (base prec width : Nat) (buf : List UInt8) :
    addHash base prec width flags buf = buf := by
  rw [addHash, h]
  rfl

section Standard

variable {value : Nat} {negative : Bool} {base prec width : Nat} {flags : Flags}

theorem numberText_eq (hbase : 1 < base) (hbase' : base ≤ 16)
    (hvalue : value < base ^ ntoaBufferSize) (hhash : flags.hash = false) :
    numberText value negative base prec width flags =
      ntoaText (shownDigits value base flags).reverse negative base prec width flags := by
  have hflags : (if value = 0 then { flags with hash := false } else flags) = flags := by
    obtain ⟨⟩ := flags
    subst hhash
    exact ite_self _
  unfold numberText
  rw [hflags]
  dsimp only
  rw [shownDigits_reverse hbase hbase' hvalue]

/-- The buffer, when there is room for the zeros and the sign. -/
theorem numberText_standard (hbase : 1 < base) (hbase' : base ≤ 16) (hhash : flags.hash = false)
    (hvalue : value < base ^ (ntoaBufferSize - (signText negative flags).length))
    (hprec : prec + (signText negative flags).length ≤ ntoaBufferSize)
    (hleft : flags.left = true → prec ≤ (shownDigits value base flags).length)
    (hzero : flags.left = false → flags.zeropad = true → width ≤ ntoaBufferSize) :
    numberText value negative base prec width flags =
      standardNumber value negative base prec width flags := by
  have hsign := length_signText_le negative flags
  have hpow : base ^ (ntoaBufferSize - (signText negative flags).length) ≤ base ^ ntoaBufferSize :=
    Nat.pow_le_pow_right (Nat.lt_trans Nat.zero_lt_one hbase) (Nat.sub_le _ _)
  have hdigits := length_shownDigits_le hbase (Nat.sub_pos_of_lt (Nat.lt_of_le_of_lt hsign
    (by decide))) hvalue flags
  rw [numberText_eq hbase hbase' (Nat.lt_of_lt_of_le hvalue hpow) hhash]
  unfold ntoaText ntoaBuffer standardNumber outRevText padZeros
  dsimp only
  generalize shownDigits value base flags = digits at hleft hdigits ⊢
  have hrev := reverse_signText negative flags
  have hsize : ntoaBufferSize = 32 := rfl
  cases hl : flags.left with
  | true =>
    -- the precision pads nothing
    rw [if_pos rfl, addHash_eq hhash, addSign_eq (by rw [length_reverse]; omega)]
    rw [Nat.sub_eq_zero_of_le (hleft hl)]
    show [] ++ (digits.reverse ++ signText negative flags).reverse ++ _ =
      signText negative flags ++ digits ++ _
    rw [nil_append, reverse_append, reverse_reverse, hrev, length_append,
      length_reverse, Nat.add_comm digits.length]
    rfl
  | false =>
    rw [if_neg Bool.false_ne_true]
    have hbody : zerosTo prec digits.reverse =
        (zeros (prec - digits.length) ++ digits).reverse := by
      rw [zerosTo_eq (by omega), reverse_append, reverse_zeros, length_reverse]
    have hlen : (zeros (prec - digits.length) ++ digits).length +
        (signText negative flags).length ≤ ntoaBufferSize := by
      rw [length_append, zeros, length_replicate]
      omega
    rw [hbody]
    generalize zeros (prec - digits.length) ++ digits = body at hlen ⊢
    cases hz : flags.zeropad with
    | true =>
      have hw := width_sub_sign width negative flags hz
      rw [hz] at hw
      have hwidth := hzero hl hz
      rw [hw, if_pos rfl, zerosTo_eq (by omega), addHash_eq hhash, length_reverse]
      rw [addSign_eq (by
        rw [length_append, length_reverse, zeros, length_replicate]
        omega)]
      show [] ++ (_ ++ _ ++ signText negative flags).reverse ++ [] = _ ++ _ ++ _
      rw [nil_append, append_nil, reverse_append, reverse_append,
        reverse_reverse, reverse_zeros, hrev, append_assoc, Nat.sub_sub]
    | false =>
      rw [if_neg Bool.false_ne_true, addHash_eq hhash, addSign_eq (by rwa [length_reverse])]
      rw [Bool.and_false, Bool.false_and]
      show spaces _ ++ (body.reverse ++ signText negative flags).reverse ++ [] = _ ++ _ ++ _
      rw [append_nil, reverse_append, reverse_reverse, hrev, length_append,
        length_reverse, Nat.add_comm body.length, append_assoc]
      rfl

end Standard

/-! ## Conversions -/

section Conversions

variable {D : Type} {x : Int}

/-- The signed conversions are decimal. -/
theorem decimal_of_signed {c : UInt8} {base : Base} {uppercase : Bool}
    (h : specifier c = .integer true base uppercase) : base = .decimal := by
  have hite : ∀ {p : Prop} [Decidable p] {a b x : Specifier}, (if p then a else b) = x →
      a = x ∨ b = x := by
    intro p _ a b x h
    by_cases hp : p
    · exact Or.inl ((if_pos hp).symm.trans h)
    · exact Or.inr ((if_neg hp).symm.trans h)
  unfold specifier at h
  rcases hite h with h | h
  · cases h
    rfl
  · iterate 14
      rcases hite h with h | h
      · cases h
    cases h

/-- The numbers that the arguments hold have few digits, but for the binary ones. -/
theorem integerArgument_bounds {signed : Bool} {d : Directive D} {va : List (Arg D)}
    (h : integerArgument signed d = some (x, va)) :
    x.natAbs < 2 ^ 64 ∧ (signed = false → 0 ≤ x) := by
  have hbounds : ∀ {w : Nat} (v v' : BitVec w), w ≤ 64 →
      (if signed then v.toInt else (v'.toNat : Int)).natAbs < 2 ^ 64 ∧
        (signed = false → 0 ≤ if signed then v.toInt else (v'.toNat : Int)) := by
    intro w v v' hw
    have hpow : 2 ^ w ≤ 2 ^ 64 := Nat.pow_le_pow_right (by decide) hw
    cases signed with
    | true =>
      show v.toInt.natAbs < 2 ^ 64 ∧ _
      rw [← toNat_magnitude]
      exact ⟨Nat.lt_of_lt_of_le (magnitude v).isLt hpow, Bool.noConfusion⟩
    | false => exact ⟨Nat.lt_of_lt_of_le v'.isLt hpow, fun _ => Int.natCast_nonneg _⟩
  unfold integerArgument at h
  split at h
  · split at h
    · obtain ⟨rfl, rfl⟩ := Prod.mk.inj (Option.some.inj h)
      exact hbounds _ _ (by decide)
    · cases h
  · split at h
    · obtain ⟨rfl, rfl⟩ := Prod.mk.inj (Option.some.inj h)
      exact hbounds _ _ (by decide)
    · cases h

/-- An unsigned conversion has no sign. -/
theorem signText_unsigned (hx : 0 ≤ x) (base : Base) (uppercase : Bool) (flags : Flags) :
    signText (x < 0) (integerFlags false base uppercase flags) = [] := by
  rw [signText, decide_eq_false (Int.not_lt.mpr hx), integerFlags_eq]
  rfl

/-- **Integer conversions are standard**, for all of `d`, `i`, `u`, `x`, `X`, `o` and `b` and every
argument, as long as there is no `#`, the number fits into the buffer with its zeros, and a field
that is adjusted to the left asks for no more digits than there are. -/
theorem specifierText_standard (float : FloatText D) {c : UInt8} {signed : Bool} {base : Base}
    {uppercase : Bool} (hc : specifier c = .integer signed base uppercase) {d : Directive D}
    {x : Int} {va : List (Arg D)} (harg : integerArgument signed d = some (x, va))
    (hhash : (integerFlags signed base uppercase d.flags).hash = false)
    (hbinary : base = .binary → x < 2 ^ 32) (hprec : d.precision < 32)
    (hleft : d.flags.left = true → d.precision ≤
      (shownDigits x.natAbs base.val (integerFlags signed base uppercase d.flags)).length)
    (hzero : d.flags.left = false →
      (integerFlags signed base uppercase d.flags).zeropad = true → d.width ≤ 32) :
    specifierText float (specifier c) d =
      some (va, standardNumber x.natAbs (x < 0) base.val d.precision d.width
        (integerFlags signed base uppercase d.flags)) := by
  have hleftFlag : (integerFlags signed base uppercase d.flags).left = d.flags.left := by
    rw [integerFlags_eq]
  obtain ⟨hx, hsigned⟩ := integerArgument_bounds harg
  rw [hc]
  show integerText signed base uppercase d = _
  rw [integerText, harg, Option.map_some]
  dsimp only
  have hval : 1 < base.val ∧ base.val ≤ 16 := by
    cases base with
    | binary => decide
    | octal => decide
    | decimal => decide
    | hexadecimal => decide
  rw [numberText_standard hval.1 hval.2 hhash]
  · -- the largest number of digits, with the sign
    cases hs : signed with
    | true =>
      subst hs
      obtain rfl := decimal_of_signed hc
      have hsign := length_signText_le (x < 0) (integerFlags true .decimal uppercase d.flags)
      refine Nat.lt_of_lt_of_le hx (Nat.le_trans (?_ : 2 ^ 64 ≤ 10 ^ 31) ?_)
      · decide
      · exact Nat.pow_le_pow_right (by decide) (Nat.sub_le_sub_left hsign 32)
    | false =>
      subst hs
      have hpos := hsigned rfl
      rw [signText_unsigned hpos]
      cases base with
      | binary =>
        have hlt := hbinary rfl
        show x.natAbs < 2 ^ 32
        omega
      | octal => exact Nat.lt_of_lt_of_le hx (by decide)
      | decimal => exact Nat.lt_of_lt_of_le hx (by decide)
      | hexadecimal => exact Nat.lt_of_lt_of_le hx (by decide)
  · have hsign := length_signText_le (x < 0) (integerFlags signed base uppercase d.flags)
    have hsize : ntoaBufferSize = 32 := rfl
    omega
  · rwa [hleftFlag]
  · rwa [hleftFlag]

/-- `%+05d` of -42: the sign of a negative number, and zeros behind it. -/
theorem specifierText_standard_negative :
    specifierText noFloat (specifier 100)
        ⟨{ zeropad := true, plus := true }, 5, 0, [], [.word (-42)]⟩ =
      some ([], [45, 48, 48, 52, 50]) := by
  have hc : specifier 100 = .integer true .decimal false := rfl
  refine Eq.trans (specifierText_standard noFloat hc (x := -42) rfl rfl ?_ ?_ ?_ ?_) (by decide)
  · exact fun h => Base.noConfusion h
  · decide
  · exact fun h => Bool.noConfusion h
  · exact fun _ _ => by decide

end Conversions

end UnagiOs.Printf
