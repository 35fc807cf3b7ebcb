import Mathlib.Data.List.FinRange
import Mathlib.Data.List.Nodup
import Mathlib.Data.List.Rotate

/-!
# Slots: a counted array

A C array with a count is a function of the index together with the number of
slots in use. `slots a n` is the list of its first `n` elements; what lies beyond
is stale and still readable. The loop that closes a gap,

```
for (; i < n; i++) a[i] = a[i + 1];
```

is `shiftDown`, and on the list it is `eraseIdx`; `shiftUp` makes room for an
element, from the top down; `fillSlots` is the loop that fills a range. A search for
the first element that passes a test is `find?` on the indices. `cycleFrom` reads the
slots round and round; what it reads in one round is a rotation of the list.
-/

namespace UnagiOs

open List

variable {α : Type} {a b : Nat → α} {i j k n : Nat} {x : α}

/-- Store in one slot. -/
def setSlot (a : Nat → α) (i : Nat) (x : α) : Nat → α := fun j => if j = i then x else a j

/-- Storing what is there. -/
theorem setSlot_self (a : Nat → α) (i : Nat) : setSlot a i (a i) = a := by
  funext j
  unfold setSlot
  split
  · next h => rw [h]
  · rfl

/-- The first `n` elements. -/
def slots (a : Nat → α) (n : Nat) : List α := (List.range n).map a

@[simp] theorem length_slots : (slots a n).length = n := by
  simp [slots]

@[simp] theorem getElem_slots (h : i < (slots a n).length) : (slots a n)[i] = a i := by
  simp [slots]

theorem slots_succ (a : Nat → α) (n : Nat) : slots a (n + 1) = slots a n ++ [a n] := by
  simp [slots, range_succ]

theorem mem_slots : x ∈ slots a n ↔ ∃ i < n, a i = x := by
  simp [slots]

theorem slots_congr (h : ∀ i < n, a i = b i) : slots a n = slots b n :=
  map_congr_left fun i hi => h i (mem_range.mp hi)

/-- Storing behind the slots in use. -/
theorem slots_setSlot_push (a : Nat → α) (n : Nat) (x : α) :
    slots (setSlot a n x) (n + 1) = slots a n ++ [x] := by
  rw [slots_succ]
  congr 1
  · exact slots_congr fun i hi => if_neg (Nat.ne_of_lt hi)
  · simp [setSlot]

/-- `for (; i < n; i++) a[i] = a[i + 1];`, the first `k` rounds. -/
def shiftDown (a : Nat → α) (i : Nat) : Nat → Nat → α
  | 0 => a
  | k + 1 =>
    let a := shiftDown a i k
    setSlot a (i + k) (a (i + k + 1))

theorem shiftDown_apply (a : Nat → α) (i k j : Nat) :
    shiftDown a i k j = if i ≤ j ∧ j < i + k then a (j + 1) else a j := by
  induction k generalizing j with
  | zero => rw [shiftDown, if_neg (by omega)]
  | succ k ih =>
    simp only [shiftDown, setSlot, ih]
    by_cases hj : j = i + k
    · subst hj
      rw [if_pos rfl, if_neg (by omega), if_pos (by omega)]
    · have hiff : i ≤ j ∧ j < i + (k + 1) ↔ i ≤ j ∧ j < i + k := by omega
      rw [if_neg hj]
      simp only [hiff]

/-- Closing the gap at `i` removes its element. -/
theorem slots_shiftDown (hi : i ≤ n) :
    slots (shiftDown a i (n - i)) n = (slots a (n + 1)).eraseIdx i := by
  refine ext_getElem ?_ fun j hj hj' => ?_
  · rw [length_eraseIdx_of_lt (by simpa using Nat.lt_succ_of_le hi)]
    simp
  · rw [length_slots] at hj
    rw [getElem_slots, shiftDown_apply, getElem_eraseIdx]
    by_cases hij : j < i
    · rw [if_neg (by omega), dif_pos hij, getElem_slots]
    · rw [if_pos (by omega), dif_neg hij, getElem_slots]

/-- `n` slots in cyclic order out of the first `m`, from slot `j` on. -/
def cycleFrom (a : Nat → α) (m j n : Nat) : List α := (List.range n).map fun k => a ((j + k) % m)

theorem cycleFrom_succ (a : Nat → α) (m j n : Nat) :
    cycleFrom a m j (n + 1) = a (j % m) :: cycleFrom a m (j + 1) n := by
  rw [cycleFrom, range_succ_eq_map, map_cons, map_map]
  refine congrArg _ (map_congr_left fun k _ => ?_)
  have hk : j + (k + 1) = j + 1 + k := by omega
  exact congrArg (fun i => a (i % m)) hk

theorem cycleFrom_congr {m j j' : Nat} (h : j % m = j' % m) (n : Nat) :
    cycleFrom a m j n = cycleFrom a m j' n := by
  refine map_congr_left fun k _ => congrArg a ?_
  rw [Nat.add_mod, h, ← Nat.add_mod]

theorem mem_of_mem_cycleFrom {m j : Nat} (hm : 0 < m) (hx : x ∈ cycleFrom a m j n) :
    x ∈ slots a m := by
  obtain ⟨k, -, rfl⟩ := mem_map.mp hx
  exact mem_slots.mpr ⟨_, Nat.mod_lt _ hm, rfl⟩

/-- One round, from anywhere. -/
theorem cycleFrom_window {m j : Nat} (h : i + m ≤ n) :
    ((cycleFrom a m j n).drop i).take m = (slots a m).rotate (j + i) := by
  refine ext_getElem ?_ fun k hk hk' => ?_
  · simp only [cycleFrom, length_take, length_drop, length_map, length_range,
      length_rotate, length_slots]
    omega
  · have hsum : j + (i + k) = k + (j + i) := by omega
    simp [cycleFrom, getElem_rotate, hsum]

/-- `for (j = 0; j < k; j++) a[i + j] = f(j);` -/
def fillSlots (a : Nat → α) (i : Nat) (f : Nat → α) : Nat → Nat → α
  | 0 => a
  | k + 1 => setSlot (fillSlots a i f k) (i + k) (f k)

theorem fillSlots_apply (a : Nat → α) (i : Nat) (f : Nat → α) (k j : Nat) :
    fillSlots a i f k j = if i ≤ j ∧ j < i + k then f (j - i) else a j := by
  induction k with
  | zero => rw [fillSlots, if_neg (by omega)]
  | succ k ih =>
    rw [fillSlots, setSlot, ih]
    by_cases hj : j = i + k
    · rw [if_pos hj, if_pos (by omega), hj, Nat.add_sub_cancel_left]
    · have hiff : i ≤ j ∧ j < i + (k + 1) ↔ i ≤ j ∧ j < i + k := by omega
      rw [if_neg hj]
      simp only [hiff]

/-- `for (j = i + k - 1; j >= i; j--) a[j + 1] = a[j];` -/
def shiftUp (a : Nat → α) (i : Nat) : Nat → Nat → α
  | 0 => a
  | k + 1 => shiftUp (setSlot a (i + k + 1) (a (i + k))) i k

theorem shiftUp_apply (a : Nat → α) (i k j : Nat) :
    shiftUp a i k j = if i < j ∧ j ≤ i + k then a (j - 1) else a j := by
  induction k generalizing a with
  | zero => rw [shiftUp, if_neg (by omega)]
  | succ k ih =>
    rw [shiftUp, ih]
    -- the slots below have not been stored to yet
    by_cases hj : j = i + k + 1
    · rw [if_neg (by omega), if_pos (by omega), setSlot, if_pos hj, hj, Nat.add_sub_cancel]
    · by_cases hin : i < j ∧ j ≤ i + k
      · rw [if_pos hin, if_pos (by omega), setSlot, if_neg (by omega)]
      · rw [if_neg hin, if_neg (by omega), setSlot, if_neg hj]

/-- The first index that passes a test. -/
theorem find?_finRange_eq_some_iff {p : Fin n → Bool} {t : Fin n} :
    (List.finRange n).find? p = some t ↔ p t = true ∧ ∀ x < t, p x = false := by
  rw [find?_eq_some_iff_append]
  constructor
  · rintro ⟨ht, l₁, l₂, hl, hno⟩
    refine ⟨ht, fun x hx => ?_⟩
    have hpw := pairwise_lt_finRange n
    have hmem := mem_finRange x
    rw [hl, pairwise_append, pairwise_cons] at hpw
    rw [hl, mem_append, mem_cons] at hmem
    rcases hmem with hm | rfl | hm
    · simpa using hno x hm
    · exact absurd hx (Nat.lt_irrefl _)
    · exact absurd (hpw.2.1.1 x hm) (Nat.lt_asymm hx)
  · rintro ⟨ht, hlt⟩
    refine ⟨ht, ?_⟩
    obtain ⟨l₁, l₂, hl⟩ := append_of_mem (mem_finRange t)
    refine ⟨l₁, l₂, hl, fun x hx => ?_⟩
    have hpw := pairwise_lt_finRange n
    rw [hl, pairwise_append] at hpw
    simp [hlt x (hpw.2.2 x hx t mem_cons_self)]

/-- No index passes the test. -/
theorem find?_finRange_eq_none_iff {p : Fin n → Bool} :
    (List.finRange n).find? p = none ↔ ∀ x, p x = false := by
  simp

end UnagiOs
