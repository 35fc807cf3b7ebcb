import Mathlib.Data.List.Nodup
import Mathlib.Data.List.Perm.Basic
import UnagiOs.Theory.Slots

/-!
# Layers: an array of handles that know their slot

An array lists handles from bottom to top, and each handle records the slot it
is in. To move one handle, the code frees its slot and lets the gap travel:

```
a[g] = a[g + 1]; a[g]->pos = g;      the gap goes up
a[g] = a[g - 1]; a[g]->pos = g;      the gap goes down
```

`Gap a pos g rest` says that the slots other than `g` hold `rest` in order. It
does not depend on where the gap has travelled to: `rest` stays the same. A gap
at the end of `rest` is no gap at all. What the whole move does to the list is
`restack`.
-/

namespace UnagiOs

open List

variable {α : Type} {a b : Nat → Option α} {pos pos' : α → Int} {g g' i k : Nat}
  {rest l : List α} {x : α}

/-- The slot of element `k` when slot `g` is left out. -/
def skip (g k : Nat) : Nat := if k < g then k else k + 1

theorem skip_of_lt (h : k < g) : skip g k = k := if_pos h

theorem skip_of_le (h : g ≤ k) : skip g k = k + 1 := if_neg (Nat.not_lt.mpr h)

theorem skip_ne (g k : Nat) : skip g k ≠ g := by
  unfold skip
  split <;> omega

/-- Moving the gap by one slot moves one element only. -/
theorem skip_succ (h : k ≠ g) : skip (g + 1) k = skip g k := by
  rcases Nat.lt_or_gt_of_ne h with hlt | hgt
  · rw [skip_of_lt hlt, skip_of_lt (by omega)]
  · rw [skip_of_le (Nat.le_of_lt hgt), skip_of_le hgt]

/-- The slots other than `g` hold the elements of `rest` in order, and each of
them knows its slot. -/
def Gap (a : Nat → Option α) (pos : α → Int) (g : Nat) (rest : List α) : Prop :=
  ∀ k x, rest[k]? = some x → a (skip g k) = some x ∧ pos x = skip g k

/-- Two indices of a list without duplicates have different elements. -/
theorem ne_of_index_ne {y : α} (hnd : rest.Nodup) (hi : rest[i]? = some x) (hk : rest[k]? = some y)
    (hki : k ≠ i) : y ≠ x := by
  rintro rfl
  obtain ⟨hlt, -⟩ := List.getElem?_eq_some_iff.mp hk
  exact hki ((getElem?_inj hlt hnd).mp (hk.trans hi.symm))

namespace Gap

/-- Only the slots in use and the positions of the elements matter. -/
theorem congr (h : Gap a pos g rest) (ha : ∀ k < rest.length, b (skip g k) = a (skip g k))
    (hpos : ∀ x ∈ rest, pos' x = pos x) : Gap b pos' g rest := by
  intro k x hk
  obtain ⟨hlt, -⟩ := List.getElem?_eq_some_iff.mp hk
  rw [ha k hlt, hpos x (mem_of_getElem? hk)]
  exact h k x hk

/-- Without a gap, where it is said to be does not matter. -/
theorem full_iff (hg : rest.length ≤ g) :
    Gap a pos g rest ↔ ∀ k x, rest[k]? = some x → a k = some x ∧ pos x = k := by
  refine forall₃_congr fun k x hk => ?_
  obtain ⟨hlt, -⟩ := List.getElem?_eq_some_iff.mp hk
  rw [skip_of_lt (Nat.lt_of_lt_of_le hlt hg)]

/-- Taking an element out leaves a gap in its slot. -/
theorem eraseIdx (h : Gap a pos l.length l) (i : Nat) : Gap a pos i (l.eraseIdx i) := by
  intro k x hk
  rw [full_iff (Nat.le_refl _)] at h
  rw [getElem?_eraseIdx] at hk
  by_cases hki : k < i
  · rw [if_pos hki] at hk
    rw [skip_of_lt hki]
    exact h k x hk
  · rw [if_neg hki] at hk
    rw [skip_of_le (Nat.not_lt.mp hki)]
    exact h (k + 1) x hk

/-- Storing an element in the gap. -/
theorem fill (h : Gap a pos g rest) (hg : g ≤ rest.length) (hx : pos x = g) :
    Gap (setSlot a g (some x)) pos (rest.length + 1) (rest.insertIdx g x) := by
  rw [full_iff (by rw [length_insertIdx_of_le_length hg])]
  intro k y hk
  rw [getElem?_insertIdx] at hk
  rcases Nat.lt_trichotomy k g with hlt | rfl | hgt
  · rw [if_pos hlt] at hk
    have hslot := h k y hk
    rw [skip_of_lt hlt] at hslot
    simpa [setSlot, Nat.ne_of_lt hlt] using hslot
  · rw [if_neg (Nat.lt_irrefl k), if_pos rfl, if_pos hg] at hk
    cases hk
    exact ⟨if_pos rfl, hx⟩
  · rw [if_neg (Nat.lt_asymm hgt), if_neg (Nat.ne_of_gt hgt)] at hk
    have hslot := h (k - 1) y hk
    rw [skip_of_le (by omega), Nat.sub_add_cancel (Nat.zero_lt_of_lt hgt)] at hslot
    simpa [setSlot, Nat.ne_of_gt hgt] using hslot

section Travel

variable [DecidableEq α] (hnd : rest.Nodup)

include hnd

/-- The element above the gap moves down. -/
theorem up (h : Gap a pos g rest) (hx : rest[g]? = some x) :
    Gap (setSlot a g (some x)) (fun y => if y = x then (g : Int) else pos y) (g + 1) rest := by
  intro k y hk
  by_cases hkg : k = g
  · subst hkg
    cases hx.symm.trans hk
    simp [skip_of_lt, setSlot]
  · rw [skip_succ hkg]
    simpa [setSlot, skip_ne, ne_of_index_ne hnd hx hk hkg] using h k y hk

/-- The element below the gap moves up. -/
theorem down (h : Gap a pos (g + 1) rest) (hx : rest[g]? = some x) :
    Gap (setSlot a (g + 1) (some x)) (fun y => if y = x then (g + 1 : Int) else pos y) g rest := by
  intro k y hk
  by_cases hkg : k = g
  · subst hkg
    cases hx.symm.trans hk
    simp [skip_of_le, setSlot]
  · rw [← skip_succ hkg]
    simpa [setSlot, skip_ne, ne_of_index_ne hnd hx hk hkg] using h k y hk

end Travel

end Gap

/-! ## The list of layers -/

theorem mem_drop_insertIdx (hi : i ≤ l.length) : x ∈ (l.insertIdx i x).drop i := by
  refine mem_of_getElem? (i := 0) ?_
  rw [getElem?_drop, Nat.add_zero, getElem?_insertIdx_self, if_pos hi]

theorem insertIdx_append (l m : List α) (x : α) (hi : i ≤ l.length) :
    (l ++ m).insertIdx i x = l.insertIdx i x ++ m := by
  induction l generalizing i with
  | nil => simp [Nat.le_zero.mp hi]
  | cons y l ih =>
    cases i with
    | zero => simp
    | succ i => simp [ih (Nat.le_of_succ_le_succ hi)]

variable [DecidableEq α]

theorem eraseIdx_eq_erase (hl : l.Nodup) (hi : l[i]? = some x) : l.eraseIdx i = l.erase x := by
  obtain ⟨hlt, rfl⟩ := List.getElem?_eq_some_iff.mp hi
  exact (hl.erase_getElem i hlt).symm

/-- What is left is one element shorter, and no shorter than the index. -/
theorem length_erase_of_index (hi : l[i]? = some x) :
    (l.erase x).length + 1 = l.length ∧ i ≤ (l.erase x).length := by
  obtain ⟨hlt, rfl⟩ := List.getElem?_eq_some_iff.mp hi
  have hlen := length_erase_add_one (getElem_mem hlt)
  exact ⟨hlen, by omega⟩

/-- Put `x` on layer `z`: below 0 it is taken out, above the top it goes on top. -/
def restack (l : List α) (x : α) (z : Int) : List α :=
  let rest := l.erase x
  if z < 0 then rest else rest.insertIdx (min z.toNat rest.length) x

theorem restack_neg {z : Int} (hz : z < 0) : restack l x z = l.erase x := if_pos hz

theorem restack_natCast (hi : i ≤ (l.erase x).length) :
    restack l x i = (l.erase x).insertIdx i x := by
  rw [restack, if_neg (Int.not_lt.mpr (Int.natCast_nonneg i)), Int.toNat_natCast,
    Nat.min_eq_left hi]

/-- An element that is on its layer stays there. -/
theorem restack_self (hl : l.Nodup) (hi : l[i]? = some x) : restack l x i = l := by
  obtain ⟨hlt, hx⟩ := List.getElem?_eq_some_iff.mp hi
  rw [restack_natCast (length_erase_of_index hi).2, ← eraseIdx_eq_erase hl hi,
    insertIdx_eraseIdx_self (Nat.ne_of_lt hlt), ← hx, set_getElem_self]

/-- An element is taken out and put back. -/
theorem insertIdx_erase_self (hl : l.Nodup) (hi : l[i]? = some x) :
    (l.erase x).insertIdx i x = l := by
  rw [← restack_natCast (length_erase_of_index hi).2, restack_self hl hi]

/-- All the positions above the top are the same. -/
theorem restack_top {z : Int} (hz : (l.erase x).length ≤ z) :
    restack l x z = (l.erase x).insertIdx (l.erase x).length x := by
  rw [restack, if_neg (by omega), Nat.min_eq_right (by omega)]

/-- Restacking among the lower layers leaves the upper ones. -/
theorem restack_append {m : List α} {z : Int} (hx : x ∈ l) (hz : z < l.length) :
    restack (l ++ m) x z = restack l x z ++ m := by
  have hlen := length_erase_add_one hx
  have herase : (l ++ m).erase x = l.erase x ++ m := erase_append_left m hx
  by_cases hneg : z < 0
  · rw [restack_neg hneg, restack_neg hneg, herase]
  · obtain ⟨i, rfl⟩ := Int.eq_ofNat_of_zero_le (Int.not_lt.mp hneg)
    rw [restack_natCast (by rw [herase, length_append]; omega), restack_natCast (by omega),
      herase, insertIdx_append _ _ _ (by omega)]

theorem length_restack {z : Int} (hz : 0 ≤ z) :
    (restack l x z).length = (l.erase x).length + 1 := by
  rw [restack, if_neg (Int.not_lt.mpr hz),
    length_insertIdx_of_le_length (Nat.min_le_right _ _)]

theorem mem_restack {y : α} {z : Int} :
    y ∈ restack l x z ↔ (0 ≤ z ∧ y = x) ∨ y ∈ l.erase x := by
  unfold restack
  split
  next hz => simp [Int.not_le.mpr hz]
  next hz => simp [mem_insertIdx (Nat.min_le_right _ _), Int.not_lt.mp hz]

theorem nodup_restack (hl : l.Nodup) (x : α) (z : Int) : (restack l x z).Nodup := by
  unfold restack
  split
  · exact hl.erase x
  · rw [(perm_insertIdx x _ (Nat.min_le_right _ _)).nodup_iff, nodup_cons]
    exact ⟨hl.not_mem_erase, hl.erase x⟩

/-- Taking an element out keeps the order of the others. -/
theorem filter_ne_erase (hl : l.Nodup) : (l.erase x).filter (· ≠ x) = l.filter (· ≠ x) := by
  rw [hl.erase_eq_filter, filter_filter]
  exact filter_congr fun y _ => by by_cases hy : y = x <;> simp [hy]

/-- Putting an element in keeps the order of the others. -/
theorem filter_ne_insertIdx (l : List α) (i : Nat) (x : α) :
    (l.insertIdx i x).filter (· ≠ x) = l.filter (· ≠ x) := by
  induction l generalizing i with
  | nil => cases i <;> simp
  | cons y l ih =>
    cases i with
    | zero => simp
    | succ i =>
      simp only [insertIdx_succ_cons, filter_cons]
      rw [ih]

/-- **Restacking keeps the order of all the other layers.** -/
theorem filter_ne_restack (hl : l.Nodup) (x : α) (z : Int) :
    (restack l x z).filter (· ≠ x) = l.filter (· ≠ x) := by
  unfold restack
  split
  · exact filter_ne_erase hl
  · rw [filter_ne_insertIdx, filter_ne_erase hl]

end UnagiOs
