import Mathlib.Algebra.Ring.Nat
import Mathlib.Data.List.GetD
import Mathlib.Data.List.Induction

/-!
# Writing through a sink

A procedure that writes text hands it to an output function, character by character, with the
place of each one in the text and the size of the buffer. The place is a machine word.

- `put`: one character. `foldl_put_idx`: the place counts the characters.
- `foldl_storeAt`: the output function that stores in a buffer, and checks the place against its
  size, leaves the beginning of the text there.
-/

namespace UnagiOs

open List

/-- The state of the output: what the output function works on, and the next place. -/
structure Cursor (w : Nat) (β : Type) where
  buffer : β
  idx : BitVec w

namespace Cursor

variable {w : Nat} {α β : Type}

/-- `out(c, buffer, idx++, maxlen)` -/
def put (out : α → β → BitVec w → BitVec w → β) (maxlen : BitVec w) (s : Cursor w β) (c : α) :
    Cursor w β :=
  ⟨out c s.buffer s.idx maxlen, s.idx + 1⟩

variable (out : α → β → BitVec w → BitVec w → β) (maxlen : BitVec w)

theorem foldl_put_idx (cs : List α) (s : Cursor w β) :
    (cs.foldl (put out maxlen) s).idx = s.idx + BitVec.ofNat w cs.length := by
  induction cs generalizing s with
  | nil => exact (BitVec.add_zero s.idx).symm
  | cons c cs ih =>
    rw [foldl_cons, ih, length_cons, Nat.add_comm, BitVec.ofNat_add, ← BitVec.add_assoc]
    rfl

/-- What was written since a place. -/
theorem foldl_put_idx_sub (cs : List α) (s : Cursor w β) (hcs : cs.length < 2 ^ w) :
    ((cs.foldl (put out maxlen) s).idx - s.idx).toNat = cs.length := by
  rw [foldl_put_idx, BitVec.add_comm, BitVec.add_sub_cancel, BitVec.toNat_ofNat,
    Nat.mod_eq_of_lt hcs]

end Cursor

section Store

variable {w : Nat} {α : Type}

/-- `if (idx < maxlen) buffer[idx] = c;` -/
def storeAt (c : α) (buffer : Nat → α) (idx maxlen : BitVec w) : Nat → α :=
  if idx < maxlen then fun i => if i = idx.toNat then c else buffer i else buffer

theorem storeAt_apply (c : α) (buffer : Nat → α) (idx maxlen : BitVec w) (i : Nat) :
    storeAt c buffer idx maxlen i =
      if idx.toNat < maxlen.toNat ∧ i = idx.toNat then c else buffer i := by
  unfold storeAt
  by_cases hlt : idx < maxlen
  · rw [if_pos hlt]
    exact if_congr (and_iff_right hlt).symm rfl rfl
  · rw [if_neg hlt, if_neg fun h => hlt h.1]

/-- The beginning of a text in a buffer. -/
theorem foldl_storeAt (cs : List α) (buffer : Nat → α) (maxlen : BitVec w)
    (hcs : cs.length ≤ 2 ^ w) (i : Nat) :
    (cs.foldl (Cursor.put storeAt maxlen) ⟨buffer, 0⟩).buffer i =
      (cs.take maxlen.toNat).getD i (buffer i) := by
  induction cs using List.reverseRecOn with
  | nil =>
    rw [take_nil]
    rfl
  | append_singleton cs c ih =>
    rw [length_append, length_singleton] at hcs
    have hidx : (cs.foldl (Cursor.put storeAt maxlen) ⟨buffer, 0⟩).idx.toNat = cs.length := by
      rw [Cursor.foldl_put_idx]
      show (0#w + BitVec.ofNat w cs.length).toNat = _
      rw [BitVec.zero_add, BitVec.toNat_ofNat, Nat.mod_eq_of_lt (by omega)]
    have ih := ih (by omega)
    rw [foldl_append, foldl_cons, foldl_nil, Cursor.put]
    show storeAt c _ _ maxlen i = _
    rw [storeAt_apply, hidx, ih]
    by_cases hroom : cs.length < maxlen.toNat
    · have hall : (cs ++ [c]).take maxlen.toNat = cs ++ [c] := by
        rw [take_of_length_le]
        rw [length_append, length_singleton]
        exact hroom
      rw [hall, take_of_length_le (Nat.le_of_lt hroom)]
      rcases Nat.lt_trichotomy i cs.length with hlt | rfl | hgt
      · rw [if_neg (by omega), getD_append _ _ _ _ hlt]
      · rw [if_pos ⟨hroom, rfl⟩, getD_append_right _ _ _ _ (Nat.le_refl _), Nat.sub_self]
        rfl
      · rw [if_neg (by omega), getD_eq_default _ _ (by omega), getD_eq_default]
        rw [length_append, length_singleton]
        omega
    · rw [if_neg fun h => hroom h.1, take_append_of_le_length (Nat.not_lt.mp hroom)]

end Store

end UnagiOs
