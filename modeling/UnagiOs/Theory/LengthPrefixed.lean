import Mathlib.Data.List.Basic
import Mathlib.Logic.Function.Iterate

/-!
# Records that start with their length

A buffer holds records one behind the other, and the first byte of each is its length. A reader
goes from record to record by adding that byte to its place; it goes wherever the bytes send it.

- `visit b n`: where the reader is after `n` records.
- `visit_flatten`: where the buffer holds records whose first bytes are their lengths, the reader
  is at one after the other (`holdsAt_visit`).
-/

namespace UnagiOs

open List

variable {b : Nat → UInt8} {n p : Nat}

/-- From the record at `p` to the next. -/
def hop (b : Nat → UInt8) (p : Nat) : Nat := p + (b p).toNat

/-- The place of record `n`, the first being at the start of the buffer. -/
def visit (b : Nat → UInt8) (n : Nat) : Nat := (hop b)^[n] 0

@[simp] theorem visit_zero (b : Nat → UInt8) : visit b 0 = 0 := rfl

theorem visit_succ (b : Nat → UInt8) (n : Nat) : visit b (n + 1) = hop b (visit b n) :=
  Function.iterate_succ_apply' (hop b) n 0

/-- The buffer holds these bytes from `p` on. -/
def HoldsAt (b : Nat → UInt8) (p : Nat) (d : List UInt8) : Prop :=
  ∀ i (hi : i < d.length), b (p + i) = d[i]

/-- The first byte is the number of bytes. -/
def Sized (d : List UInt8) : Prop := d.head?.map UInt8.toNat = some d.length

instance : DecidablePred Sized := fun _ => inferInstanceAs (Decidable (_ = _))

theorem holdsAt_append {d e : List UInt8} :
    HoldsAt b p (d ++ e) ↔ HoldsAt b p d ∧ HoldsAt b (p + d.length) e := by
  constructor
  · intro h
    constructor
    · intro i hi
      rw [h i (by rw [length_append]; omega), getElem_append_left hi]
    · intro i hi
      have hlt : d.length + i < (d ++ e).length := by rw [length_append]; omega
      rw [Nat.add_assoc, h _ hlt, getElem_append_right (by omega)]
      simp
  · rintro ⟨hd, he⟩ i hi
    rw [length_append] at hi
    by_cases hlt : i < d.length
    · rw [hd i hlt, getElem_append_left hlt]
    · have hplace : p + i = p + d.length + (i - d.length) := by omega
      rw [hplace, he _ (by omega), getElem_append_right (by omega)]

theorem Sized.hop_eq {d : List UInt8} (hd : Sized d) (h : HoldsAt b p d) :
    hop b p = p + d.length := by
  cases d with
  | nil => cases hd
  | cons x d =>
    have hx : x.toNat = (x :: d).length := Option.some.inj hd
    have hb : b p = x := h 0 (Nat.succ_pos _)
    rw [hop, hb, hx]

section Flatten

variable {ds : List (List UInt8)} {i : Nat}

/-- The buffer holds each record behind the ones before it. -/
theorem HoldsAt.record (hb : HoldsAt b 0 ds.flatten) (hi : i < ds.length) :
    HoldsAt b (ds.take i).flatten.length ds[i] := by
  have hsplit : ds.flatten = (ds.take i).flatten ++ (ds[i] ++ (ds.drop (i + 1)).flatten) := by
    rw [← flatten_cons, ← drop_eq_getElem_cons hi, ← flatten_append,
      take_append_drop]
  rw [hsplit, holdsAt_append, Nat.zero_add, holdsAt_append] at hb
  exact hb.2.1

/-- The reader is behind the records it has been to. -/
theorem visit_flatten (hds : ∀ d ∈ ds, Sized d) (hb : HoldsAt b 0 ds.flatten)
    (hi : i ≤ ds.length) : visit b i = (ds.take i).flatten.length := by
  induction i with
  | zero => rfl
  | succ i ih =>
    have hhold := hb.record hi
    rw [visit_succ, ih (Nat.le_of_succ_le hi), (hds _ (getElem_mem hi)).hop_eq hhold,
      take_succ_eq_append_getElem hi, flatten_append, length_append]
    simp

/-- At each place it finds the record. -/
theorem holdsAt_visit (hds : ∀ d ∈ ds, Sized d) (hb : HoldsAt b 0 ds.flatten)
    (hi : i < ds.length) : HoldsAt b (visit b i) ds[i] := by
  rw [visit_flatten hds hb (Nat.le_of_lt hi)]
  exact hb.record hi

/-- The places are inside of the buffer. -/
theorem visit_lt (hds : ∀ d ∈ ds, Sized d) (hb : HoldsAt b 0 ds.flatten) (hi : i < ds.length) :
    visit b i < ds.flatten.length := by
  have hsized : Sized ds[i] := hds _ (getElem_mem hi)
  have hpos : 0 < ds[i].length := by
    cases h : ds[i] with
    | nil =>
      rw [h] at hsized
      cases hsized
    | cons x d => exact Nat.succ_pos _
  have hle : (ds.take (i + 1)).flatten.length ≤ ds.flatten.length := by
    conv_rhs => rw [← take_append_drop (i + 1) ds, flatten_append, length_append]
    exact Nat.le_add_right _ _
  have hnext := visit_flatten hds hb (i := i + 1) hi
  rw [visit_succ, hsized.hop_eq (holdsAt_visit hds hb hi)] at hnext
  omega

end Flatten

end UnagiOs
