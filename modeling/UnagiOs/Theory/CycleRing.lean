import Mathlib.Data.Nat.ModEq

/-!
# Rings with a cycle bit

A ring of `B` slots between one producer and one consumer that share no counter.
Positions are numbered from 0 through all laps: position `x` lives in slot
`x % B`, and every entry carries a bit that says in which laps it is valid, the
`phase` of its position. The consumer compares the bit in its slot with the
phase it expects and needs nothing else.

`CycleRing bit B mem log c` relates the memory to the entries `log` published so
far, of which the consumer has read `c`. The rules:

- `front_iff`: the consumer's test succeeds exactly if there is an unread entry.
- `take`: reading moves the consumer on.
- `scribble`: the producer may write anything into the next slot, as long as the
  bit stays wrong.
- `publish`: once the bit is right, the slot is the next entry.
-/

namespace UnagiOs

variable {B x y : Nat}

/-- The bit of position `x`: set in even laps. -/
def phase (B x : Nat) : Bool := x / B % 2 == 0

theorem phase_of_div {q : Nat} (h : y / B = x / B + q) :
    phase B y = if q % 2 = 0 then phase B x else !phase B x := by
  unfold phase
  rw [h, Nat.add_mod]
  rcases Nat.mod_two_eq_zero_or_one (x / B) with hx | hx <;>
    rcases Nat.mod_two_eq_zero_or_one q with hq | hq <;> rw [hx, hq] <;> rfl

theorem phase_add (hB : 0 < B) : phase B (x + B) = !phase B x :=
  phase_of_div (Nat.add_div_right x hB)

theorem mod_ne_of_lt (h : x < y) (h' : y < x + B) : x % B ≠ y % B := by
  intro heq
  have hdvd : B ∣ y - x := (Nat.modEq_iff_dvd' (Nat.le_of_lt h)).mp heq
  have hle := Nat.le_of_dvd (Nat.sub_pos_of_lt h) hdvd
  omega

/-- The slot after `x`, as code computes it. -/
theorem succ_mod_eq (hB : 0 < B) : (x + 1) % B = if x % B + 1 = B then 0 else x % B + 1 := by
  have hlt := Nat.mod_lt x hB
  rw [← Nat.mod_add_mod]
  split
  · next h => rw [h, Nat.mod_self]
  · exact Nat.mod_eq_of_lt (by omega)

/-- The phase after `x`, as code computes it. -/
theorem phase_succ (hB : 0 < B) :
    phase B (x + 1) = if x % B + 1 = B then !phase B x else phase B x := by
  have hslot := succ_mod_eq (x := x) hB
  split at hslot
  · next h =>
    rw [if_pos h]
    exact phase_of_div (Nat.succ_div_of_mod_eq_zero hslot)
  · next h =>
    rw [if_neg h]
    exact phase_of_div (q := 0) (Nat.succ_div_of_mod_ne_zero (by omega))

/-- The entries `log` have been published through the memory `mem`, and the first
`c` of them have been read. -/
structure CycleRing {τ : Type} (bit : τ → Bool) (B : Nat) (mem : Nat → τ) (log : List τ)
    (c : Nat) : Prop where
  le : c ≤ log.length
  room : log.length ≤ c + B
  /-- Unread entries are in the memory. -/
  kept : ∀ x, c ≤ x → x < log.length → log[x]? = some (mem (x % B))
  bits : ∀ x t, log[x]? = some t → bit t = phase B x
  /-- Every slot carries the wrong bit for the position that comes to it next. -/
  stale : ∀ x, log.length ≤ x → x < log.length + B → bit (mem (x % B)) = !phase B x

namespace CycleRing

variable {τ : Type} {bit : τ → Bool} {mem mem' : Nat → τ} {log : List τ} {c : Nat} {t : τ}

/-- A cleared memory. -/
theorem start (hzero : ∀ s < B, bit (mem s) = false) : CycleRing bit B mem [] 0 where
  le := Nat.le_refl 0
  room := Nat.zero_le _
  kept x _ h := absurd h (Nat.not_lt_zero x)
  bits x t h := by simp at h
  stale x _ h := by
    have hx : x < B := by simpa using h
    rw [Nat.mod_eq_of_lt hx, hzero x hx, phase, Nat.div_eq_of_lt hx]
    rfl

/-- The consumer's test. -/
theorem front_iff (hB : 0 < B) (h : CycleRing bit B mem log c) :
    bit (mem (c % B)) = phase B c ↔ c < log.length := by
  have hle := h.le
  constructor
  · intro hbit
    by_contra hge
    rw [h.stale c (by omega) (by omega)] at hbit
    exact Bool.not_ne_self _ hbit
  · intro hlt
    exact h.bits c _ (h.kept c (Nat.le_refl c) hlt)

/-- The entry that the consumer finds. -/
theorem front (h : CycleRing bit B mem log c) (hlt : c < log.length) :
    log[c]? = some (mem (c % B)) :=
  h.kept c (Nat.le_refl c) hlt

theorem take (h : CycleRing bit B mem log c) (hlt : c < log.length) :
    CycleRing bit B mem log (c + 1) where
  le := hlt
  room := h.room.trans (by omega)
  kept x hx := h.kept x (by omega)
  bits := h.bits
  stale := h.stale

/-- A write into the next slot that leaves the bit wrong. -/
theorem scribble (h : CycleRing bit B mem log c) (hroom : log.length < c + B)
    (hmem : ∀ s, s ≠ log.length % B → mem' s = mem s)
    (hbit : bit (mem' (log.length % B)) = !phase B log.length) :
    CycleRing bit B mem' log c where
  le := h.le
  room := h.room
  kept x hx hlt := by
    rw [h.kept x hx hlt, hmem _ (mod_ne_of_lt hlt (by omega))]
  bits := h.bits
  stale x hx hlt := by
    rcases Nat.eq_or_lt_of_le hx with rfl | hlt'
    · exact hbit
    · rw [hmem _ (mod_ne_of_lt hlt' hlt).symm]
      exact h.stale x hx hlt

/-- A write into the next slot that makes the bit right. -/
theorem publish (hB : 0 < B) (h : CycleRing bit B mem log c) (hroom : log.length < c + B)
    (hmem : ∀ s, s ≠ log.length % B → mem' s = mem s)
    (ht : mem' (log.length % B) = t) (hbit : bit t = phase B log.length) :
    CycleRing bit B mem' (log ++ [t]) c where
  le := by
    have := h.le
    simp
    omega
  room := by
    simp
    omega
  kept x hx hlt := by
    rw [List.length_append, List.length_singleton] at hlt
    rcases Nat.eq_or_lt_of_le (Nat.le_of_lt_succ hlt) with rfl | hlt'
    · rw [List.getElem?_concat_length, ht]
    · rw [List.getElem?_append_left hlt', h.kept x hx hlt',
        hmem _ (mod_ne_of_lt hlt' (by omega))]
  bits x u hu := by
    by_cases hlt : x < log.length
    · rw [List.getElem?_append_left hlt] at hu
      exact h.bits x u hu
    · have hx : x = log.length := by
        have := (List.getElem?_eq_some_iff.mp hu).1
        simp at this
        omega
      subst hx
      rw [List.getElem?_concat_length] at hu
      cases hu
      exact hbit
  stale x hx hlt := by
    rw [List.length_append, List.length_singleton] at hx hlt
    rcases Nat.lt_or_ge x (log.length + B) with hlt' | hge
    · rw [hmem _ (mod_ne_of_lt hx hlt').symm]
      exact h.stale x (by omega) hlt'
    · -- the slot just written comes next in the following lap
      obtain rfl : x = log.length + B := by omega
      rw [Nat.add_mod_right, ht, hbit, phase_add hB, Bool.not_not]

end CycleRing

end UnagiOs
