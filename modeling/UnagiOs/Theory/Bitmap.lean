import Mathlib.Order.Bounds.Defs
import UnagiOs.Theory.Slots

/-!
# Bitmaps and runs of clear bits

A bitmap is an array of `w`-bit lines; bit `f` of it is bit `f % w` of line
`f / w`. Testing, setting and clearing a bit with a one-bit mask acts on
`bitAt` as on a plain set of numbers, and a loop over consecutive bits is `fill`.

`IsRun p lo hi n s` says that the `n` bits from `s` on are clear and lie in
`[lo, hi)`. A first-fit search rests on two rules: a set bit in the window rules
out every start up to that bit (`IsRun.skip`), and a window that sticks out at
the end rules out every later start (`IsRun.not_past_end`).
-/

namespace UnagiOs

section Bits

variable {w : Nat} {a : Nat → BitVec w} {f g j : Nat} {b : Bool} {p : Nat → Bool} {s n : Nat}

/-- Bit `f` of a map of `w`-bit lines. -/
def bitAt (a : Nat → BitVec w) (f : Nat) : Bool := (a (f / w)).getLsbD (f % w)

/-- Testing with a one-bit mask. -/
theorem and_mask_ne_zero (x : BitVec w) (hj : j < w) :
    (x &&& 1#w <<< j != 0#w) = x.getLsbD j := by
  have hone : BitVec.twoPow w j ≠ 0#w := by
    intro h
    have hbit := congrArg (fun y => y.getLsbD j) h
    simp [hj] at hbit
  rw [← BitVec.twoPow_eq, BitVec.and_twoPow]
  cases x.getLsbD j <;> simp [hone]

/-- A line that differs from the old one in bit `f` only. -/
theorem bitAt_setSlot (hw : 0 < w) (x : BitVec w)
    (hx : ∀ j < w, x.getLsbD j = if j = f % w then b else (a (f / w)).getLsbD j) :
    bitAt (setSlot a (f / w) x) g = if g = f then b else bitAt a g := by
  unfold bitAt setSlot
  by_cases hline : g / w = f / w
  · -- on the same line two bits are equal when their remainders are
    have hmod : g % w = f % w ↔ g = f := by
      refine ⟨fun h => ?_, fun h => h ▸ rfl⟩
      rw [← Nat.div_add_mod g w, ← Nat.div_add_mod f w, hline, h]
    rw [if_pos hline, hx _ (Nat.mod_lt g hw), hline]
    simp only [hmod]
  · rw [if_neg hline, if_neg fun h => hline (congrArg (· / w) h)]

theorem bitAt_or_mask (hw : 0 < w) :
    bitAt (setSlot a (f / w) (a (f / w) ||| 1#w <<< (f % w))) g =
      if g = f then true else bitAt a g := by
  refine bitAt_setSlot hw _ fun j hj => ?_
  rw [BitVec.getLsbD_or, ← BitVec.twoPow_eq, BitVec.getLsbD_twoPow]
  by_cases h : j = f % w
  · simp [h, Nat.mod_lt f hw]
  · simp [h, Ne.symm h]

theorem bitAt_and_not_mask (hw : 0 < w) :
    bitAt (setSlot a (f / w) (a (f / w) &&& ~~~(1#w <<< (f % w)))) g =
      if g = f then false else bitAt a g := by
  refine bitAt_setSlot hw _ fun j hj => ?_
  rw [BitVec.getLsbD_and, BitVec.getLsbD_not, ← BitVec.twoPow_eq, BitVec.getLsbD_twoPow]
  by_cases h : j = f % w
  · simp [h, Nat.mod_lt f hw]
  · simp [h, Ne.symm h, hj]

/-- The `n` bits from `s` on set to `b`. -/
def fill (p : Nat → Bool) (s n : Nat) (b : Bool) : Nat → Bool :=
  fun f => if s ≤ f ∧ f < s + n then b else p f

theorem fill_zero (p : Nat → Bool) (s : Nat) (b : Bool) : fill p s 0 b = p :=
  funext fun f => if_neg (by omega)

theorem fill_succ (p : Nat → Bool) (s n : Nat) (b : Bool) :
    fill p s (n + 1) b = fun f => if f = s + n then b else fill p s n b f := by
  funext f
  unfold fill
  by_cases h : f = s + n
  · rw [if_pos h, if_pos (by omega)]
  · have hiff : s ≤ f ∧ f < s + (n + 1) ↔ s ≤ f ∧ f < s + n := by omega
    rw [if_neg h]
    simp only [hiff]

theorem fill_true_iff : fill p s n true f = true ↔ (s ≤ f ∧ f < s + n) ∨ p f = true := by
  unfold fill
  split <;> simp [*]

theorem fill_false_iff : fill p s n false f = true ↔ ¬(s ≤ f ∧ f < s + n) ∧ p f = true := by
  unfold fill
  split <;> simp [*]

end Bits

section Runs

variable {p : Nat → Bool} {lo hi n s t i : Nat}

/-- The `n` bits from `s` on are clear and lie in `[lo, hi)`. -/
structure IsRun (p : Nat → Bool) (lo hi n s : Nat) : Prop where
  lo_le : lo ≤ s
  le_hi : s + n ≤ hi
  clear : ∀ f, s ≤ f → f < s + n → p f = false

/-- A set bit in the window at `s` rules out every start up to that bit. -/
theorem IsRun.skip (hs : ∀ t, IsRun p lo hi n t → s ≤ t) (hi' : i < n) (hp : p (s + i) = true) :
    ∀ t, IsRun p lo hi n t → s + (i + 1) ≤ t := by
  intro t ht
  have hst := hs t ht
  by_contra hlt
  have hclear := ht.clear (s + i) (by omega) (by omega)
  exact absurd (hclear.symm.trans hp) Bool.false_ne_true

/-- A window that sticks out at the end rules out every later start. -/
theorem IsRun.not_past_end (hs : ∀ t, IsRun p lo hi n t → s ≤ t) (hend : hi < s + n) :
    ¬ ∃ t, IsRun p lo hi n t := by
  rintro ⟨t, ht⟩
  have hst := hs t ht
  have hle := ht.le_hi
  omega

end Runs

end UnagiOs
