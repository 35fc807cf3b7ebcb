import Mathlib.Data.List.Induction
import UnagiOs.Theory.Layers

/-!
# Painting layers from bottom to top

At one point of a picture a layer either covers what is below it or it does not.
The layer that is seen is the `topmost` one that covers. Painting only the layers
from some height on leaves it on the canvas, as long as it is there already
wherever none of these covers (`paint_from`).

Where a layer does not cover, moving it does not show (`topmost_restack`). Where it
does, what is seen depends on which layers it is put above and below.

A loop of stores paints an array: in each slot the last store is seen (`foldlM_stores`).
-/

namespace UnagiOs

open List

variable {α β : Type} {cov cov' : α → Bool} {l l₁ l₂ : List α} {x y : α} {k : Nat}

/-- The last layer of the list that covers. -/
def topmost (cov : α → Bool) (l : List α) : Option α := l.reverse.find? cov

@[simp] theorem topmost_nil : topmost cov [] = none := rfl

theorem topmost_append : topmost cov (l₁ ++ l₂) = (topmost cov l₂).or (topmost cov l₁) := by
  simp [topmost]

theorem topmost_singleton : topmost cov [x] = if cov x then some x else none := by
  by_cases h : cov x <;> simp [topmost, h]

theorem topmost_eq_none_iff : topmost cov l = none ↔ ∀ x ∈ l, cov x = false := by
  simp [topmost]

theorem topmost_congr (h : ∀ x ∈ l, cov x = cov' x) : topmost cov l = topmost cov' l := by
  induction l using List.reverseRecOn with
  | nil => rfl
  | append_singleton l x ih =>
    rw [topmost_append, topmost_append, topmost_singleton, topmost_singleton,
      h x (mem_append_right l mem_cons_self),
      ih fun y hy => h y (mem_append_left _ hy)]

/-- The topmost layer covers, and none above it does. -/
theorem topmost_eq_some_iff : topmost cov l = some x ↔
    cov x = true ∧ ∃ l₁ l₂, l = l₁ ++ x :: l₂ ∧ ∀ y ∈ l₂, cov y = false := by
  rw [topmost, find?_eq_some_iff_append]
  refine and_congr_right fun _ => ?_
  constructor
  · rintro ⟨as, bs, hl, has⟩
    refine ⟨bs.reverse, as.reverse, ?_, fun y hy => by simpa using has y (mem_reverse.mp hy)⟩
    rw [← reverse_reverse l, hl]
    simp
  · rintro ⟨l₁, l₂, rfl, hl₂⟩
    exact ⟨l₂.reverse, l₁.reverse, by simp, fun y hy => by simp [hl₂ y (mem_reverse.mp hy)]⟩

theorem topmost_mem (h : topmost cov l = some x) : x ∈ l ∧ cov x = true := by
  obtain ⟨hx, l₁, l₂, rfl, -⟩ := topmost_eq_some_iff.mp h
  exact ⟨by simp, hx⟩

/-- No layer above the topmost one covers. -/
theorem topmost_above {i : Nat} (hl : l.Nodup) (h : topmost cov l = some x) (hi : l[i]? = some x)
    {j : Nat} (hij : i < j) (hj : l[j]? = some y) : cov y = false := by
  obtain ⟨-, l₁, l₂, rfl, hl₂⟩ := topmost_eq_some_iff.mp h
  have hlen : i = l₁.length := by
    obtain ⟨hlt, -⟩ := List.getElem?_eq_some_iff.mp hi
    exact (getElem?_inj hlt hl).mp (by simp [hi])
  rw [getElem?_append_right (by omega)] at hj
  obtain ⟨n, hn⟩ : ∃ n, j - l₁.length = n + 1 := ⟨j - l₁.length - 1, by omega⟩
  rw [hn, getElem?_cons_succ] at hj
  exact hl₂ y (mem_of_getElem? hj)

/-- A layer that covers is topmost if none above it covers. -/
theorem topmost_of_index {i : Nat} (hi : l[i]? = some x) (hx : cov x = true)
    (habove : ∀ j y, i < j → l[j]? = some y → cov y = false) : topmost cov l = some x := by
  obtain ⟨hlt, hget⟩ := List.getElem?_eq_some_iff.mp hi
  refine topmost_eq_some_iff.mpr ⟨hx, l.take i, l.drop (i + 1), ?_, fun y hy => ?_⟩
  · rw [← hget, getElem_cons_drop, take_append_drop]
  · obtain ⟨j, hj⟩ := getElem?_of_mem hy
    rw [getElem?_drop] at hj
    exact habove _ y (by omega) hj

/-- A test that more layers pass finds the layer that covers iff what it finds covers. -/
theorem topmost_eq_iff (h : ∀ x, cov x = true → cov' x = true) :
    topmost cov' l = topmost cov l ↔ ∀ x, topmost cov' l = some x → cov x = true := by
  constructor
  · exact fun heq x hx => (topmost_mem (heq.symm.trans hx)).2
  · intro hcov
    cases htop : topmost cov' l with
    | none =>
      refine (topmost_eq_none_iff.mpr fun x hx => ?_).symm
      by_contra hc
      have hno := topmost_eq_none_iff.mp htop x hx
      rw [h x (Bool.eq_true_of_not_eq_false hc)] at hno
      cases hno
    | some x =>
      obtain ⟨-, l₁, l₂, hl, hl₂⟩ := topmost_eq_some_iff.mp htop
      refine (topmost_eq_some_iff.mpr ⟨hcov x htop, l₁, l₂, hl, fun y hy => ?_⟩).symm
      by_contra hc
      have hno := hl₂ y hy
      rw [h y (Bool.eq_true_of_not_eq_false hc)] at hno
      cases hno

/-- In an ordered list, no layer that covers is beyond the topmost one. -/
theorem topmost_pairwise {R : α → α → Prop} (hl : l.Pairwise R) (h : topmost cov l = some x)
    (hy : y ∈ l) (hcov : cov y = true) : y = x ∨ R y x := by
  obtain ⟨-, l₁, l₂, rfl, hl₂⟩ := topmost_eq_some_iff.mp h
  rcases mem_append.mp hy with hy | hy
  · exact .inr ((pairwise_append.mp hl).2.2 y hy x mem_cons_self)
  · rcases mem_cons.mp hy with rfl | hy
    · exact .inl rfl
    · rw [hl₂ y hy] at hcov
      cases hcov

/-- What is topmost in a list of stacks is topmost in one of them. -/
theorem exists_topmost_of_flatMap {γ : Type} {zs : List γ} {g : γ → List α}
    (h : topmost cov (zs.flatMap g) = some x) : ∃ z ∈ zs, topmost cov (g z) = some x := by
  induction zs using List.reverseRecOn with
  | nil => cases h
  | append_singleton zs z ih =>
    rw [flatMap_append, flatMap_singleton, topmost_append] at h
    cases hz : topmost cov (g z) with
    | some y =>
      rw [hz, Option.some_or] at h
      exact ⟨z, by simp, hz.trans h⟩
    | none =>
      rw [hz, Option.none_or] at h
      obtain ⟨z', hmem, hz'⟩ := ih h
      exact ⟨z', mem_append_left _ hmem, hz'⟩

/-- **A loop of conditional stores** leaves in each slot what was stored there last. -/
theorem foldlM_stores {slot : α → Nat} {val : α → β} {f : (Nat → β) → α → Option (Nat → β)}
    (hf : ∀ m, ∀ p ∈ l, f m p = some (if cov p then setSlot m (slot p) (val p) else m))
    (m : Nat → β) :
    ∃ m', l.foldlM f m = some m' ∧ ∀ i,
      m' i = ((topmost (fun p => cov p && decide (slot p = i)) l).map val).getD (m i) := by
  induction l using List.reverseRecOn with
  | nil => exact ⟨m, rfl, fun i => rfl⟩
  | append_singleton l p ih =>
    obtain ⟨m₁, hm₁, hspec⟩ := ih fun m q hq => hf m q (mem_append_left _ hq)
    refine ⟨if cov p then setSlot m₁ (slot p) (val p) else m₁, ?_, fun i => ?_⟩
    · rw [foldlM_append, hm₁]
      simpa using hf m₁ p (by simp)
    · rw [topmost_append, topmost_singleton]
      by_cases hcov : cov p = true
      · by_cases hslot : slot p = i
        · simp [hcov, hslot, setSlot]
        · simp [hcov, hslot, setSlot, hspec, Ne.symm hslot]
      · simp [hcov, hspec]

/-- What is topmost from some height on is topmost. -/
theorem topmost_of_drop (h : topmost cov (l.drop k) = some x) : topmost cov l = some x := by
  rw [← take_append_drop k l, topmost_append, h, Option.some_or]

/-- If only one layer can cover, it is the topmost one. -/
theorem topmost_unique [DecidableEq α] (h : ∀ y ∈ l, cov y = true → y = x) (hx : cov x = true) :
    topmost cov l = if x ∈ l then some x else none := by
  split
  next hmem =>
    cases htop : topmost cov l with
    | none => rw [topmost_eq_none_iff.mp htop x hmem] at hx; cases hx
    | some y =>
      obtain ⟨hy, hcov⟩ := topmost_mem htop
      rw [h y hy hcov]
  next hmem =>
    refine topmost_eq_none_iff.mpr fun y hy => ?_
    by_contra hcov
    exact hmem (h y hy (Bool.eq_true_of_not_eq_false hcov) ▸ hy)

/-- The elements of a segment of a list are those with an index in it. -/
theorem mem_segment_iff (hl : l.Nodup) {i e : Nat} (hi : l[i]? = some x) :
    x ∈ (l.take e).drop k ↔ k ≤ i ∧ i < e := by
  rw [mem_iff_getElem?]
  constructor
  · rintro ⟨n, hn⟩
    rw [getElem?_drop, getElem?_take] at hn
    split at hn
    next hlt =>
      obtain ⟨hlen, -⟩ := List.getElem?_eq_some_iff.mp hi
      have hin := (getElem?_inj hlen hl).mp (hi.trans hn.symm)
      omega
    next => cases hn
  · rintro ⟨hki, hie⟩
    refine ⟨i - k, ?_⟩
    rw [getElem?_drop, getElem?_take, if_pos (by omega), Nat.add_sub_cancel' hki, hi]

/-- Painting the layers from height `k` on leaves the topmost layer, if that layer is
already there wherever nothing is painted. -/
theorem paint_from {ink : α → β} {b : β} {inside : Prop} [Decidable inside]
    (hx : topmost cov l = some x)
    (hb : ¬ inside ∨ topmost cov (l.drop k) = none → b = ink x) :
    (if inside then ((topmost cov (l.drop k)).map ink).getD b else b) = ink x := by
  split
  next hin =>
    cases htop : topmost cov (l.drop k) with
    | none => exact hb (.inr htop)
    | some y =>
      cases hx.symm.trans (topmost_of_drop htop)
      rfl
  next hout => exact hb (.inl hout)

/-! ## One more layer -/

section Insert

variable {i r : Nat} (hl : l.Nodup)

include hl

/-- A layer put in below the topmost one does not show. -/
theorem topmost_insert_below (hy : topmost cov l = some y) (hr : l[r]? = some y) (hir : i ≤ r) :
    topmost cov (l.insertIdx i x) = some y := by
  refine topmost_of_index (i := r + 1) ?_ (topmost_mem hy).2 fun j w hj hw => ?_
  · rwa [getElem?_insertIdx_of_gt (by omega), Nat.add_sub_cancel]
  · rw [getElem?_insertIdx_of_gt (by omega)] at hw
    exact topmost_above hl hy hr (by omega) hw

/-- A layer put in above the topmost one takes its place where it covers. -/
theorem topmost_insert_above (hy : topmost cov l = some y) (hr : l[r]? = some y) (hri : r < i)
    (hi : i ≤ l.length) (hx : cov x = true) : topmost cov (l.insertIdx i x) = some x := by
  refine topmost_of_index (i := i) ?_ hx fun j w hj hw => ?_
  · rw [getElem?_insertIdx_self, if_pos hi]
  · rw [getElem?_insertIdx_of_gt hj] at hw
    exact topmost_above hl hy hr (by omega) hw

/-- Where a layer covers and yet another one is seen, the other one is above it. -/
theorem topmost_of_insert (hxl : x ∉ l) (hi : i ≤ l.length) (hx : cov x = true)
    (hy : topmost cov (l.insertIdx i x) = some y) (hne : y ≠ x) :
    ∃ r, i ≤ r ∧ l[r]? = some y ∧ topmost cov l = some y := by
  have hnd : (l.insertIdx i x).Nodup := by
    rw [(perm_insertIdx x l hi).nodup_iff, nodup_cons]
    exact ⟨hxl, hl⟩
  have hself : (l.insertIdx i x)[i]? = some x := by
    rw [getElem?_insertIdx_self, if_pos hi]
  obtain ⟨n, hn⟩ := getElem?_of_mem (topmost_mem hy).1
  have hin : i < n := by
    rcases Nat.lt_trichotomy n i with hlt | rfl | hgt
    · rw [topmost_above hnd hy hn hlt hself] at hx
      cases hx
    · exact absurd (Option.some.inj (hn.symm.trans hself)) hne
    · exact hgt
  have hn' : l[n - 1]? = some y := by rwa [getElem?_insertIdx_of_gt hin] at hn
  refine ⟨n - 1, by omega, hn', topmost_of_index hn' (topmost_mem hy).2 fun j w hj hw => ?_⟩
  refine topmost_above hnd hy hn (j := j + 1) (by omega) ?_
  rwa [getElem?_insertIdx_of_gt (by omega), Nat.add_sub_cancel]

end Insert

section Restack

variable [DecidableEq α]

/-- A layer that does not cover can be left out. -/
theorem topmost_filter_ne (hx : cov x = false) :
    topmost cov (l.filter (· ≠ x)) = topmost cov l := by
  rw [topmost, topmost, ← filter_reverse, find?_filter]
  congr 1
  funext y
  by_cases hy : y = x <;> simp [hy, hx]

/-- **Moving a layer does not show where it does not cover.** -/
theorem topmost_restack (hl : l.Nodup) (hx : cov x = false) (z : Int) :
    topmost cov (restack l x z) = topmost cov l := by
  rw [← topmost_filter_ne hx, filter_ne_restack hl, topmost_filter_ne hx]

end Restack

end UnagiOs
