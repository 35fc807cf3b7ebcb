import Mathlib.Data.Int.Range
import Mathlib.Data.List.Induction
import Mathlib.Data.List.Sort
import Mathlib.Algebra.Order.Ring.Int
import UnagiOs.Theory.Slots

/-!
# Loops over integer ranges

`for (z = a; z < b; z++)` is a fold over `Int.range a b`, and over its reverse
where the loop counts down. A body that can be stuck answers in `Option`.

The second part is about two-dimensional arrays: row-major order puts
element `(x, y)` of a `w × h` array at `w * y + x`.
-/

namespace UnagiOs

open List

section Range

variable {a b : Int}

theorem range_eq_nil (h : b ≤ a) : Int.range a b = [] := by
  simp [Int.range, Int.toNat_eq_zero.mpr (Int.sub_nonpos_of_le h)]

theorem range_succ_right (h : a ≤ b) : Int.range a (b + 1) = Int.range a b ++ [b] := by
  have hn : (b + 1 - a).toNat = (b - a).toNat + 1 := by omega
  have hb : a + ((b - a).toNat : Int) = b := by omega
  simp only [Int.range, hn, range_succ, map_append, map_cons, map_nil, hb]

theorem range_pairwise (a b : Int) : (Int.range a b).Pairwise (· < ·) := by
  rw [Int.range, pairwise_map]
  exact pairwise_lt_range.imp fun h => by omega

/-- The part of a range between two bounds. -/
theorem range_filter (a b c d : Int) :
    (Int.range a b).filter (fun z => decide (c ≤ z ∧ z ≤ d)) =
      Int.range (max a c) (min b (d + 1)) := by
  refine ((range_pairwise a b).filter _).eq_of_mem_iff (range_pairwise _ _) fun z => ?_
  simp only [mem_filter, Int.mem_range_iff, decide_eq_true_eq]
  omega

end Range

/-- What every round keeps, and no round is stuck on, the loop keeps. -/
theorem foldlM_of_inv {α β : Type} {f : β → α → Option β} {xs : List α} {Inv : β → Prop}
    (hround : ∀ b, Inv b → ∀ x ∈ xs, ∃ b', f b x = some b' ∧ Inv b') {b : β} (hb : Inv b) :
    ∃ b', xs.foldlM f b = some b' ∧ Inv b' := by
  induction xs generalizing b with
  | nil => exact ⟨b, rfl, hb⟩
  | cons x xs ih =>
    obtain ⟨b₁, hb₁, hinv⟩ := hround b hb x mem_cons_self
    rw [foldlM_cons, hb₁]
    exact ih (fun b hb y hy => hround b hb y (mem_cons_of_mem _ hy)) hinv

/-- A loop whose rounds are never stuck comes back. -/
theorem exists_foldlM {α β : Type} {f : β → α → Option β} {xs : List α}
    (hround : ∀ b, ∀ x ∈ xs, ∃ b', f b x = some b') (b : β) :
    ∃ b', xs.foldlM f b = some b' := by
  have hinv : ∀ b, True → ∀ x ∈ xs, ∃ b', f b x = some b' ∧ True := fun b _ x hx =>
    (hround b x hx).imp fun _ h => ⟨h, trivial⟩
  obtain ⟨b', hb', -⟩ := foldlM_of_inv hinv (b := b) trivial
  exact ⟨b', hb'⟩

theorem foldlM_congr {α β : Type} {f g : β → α → Option β} {xs : List α}
    (h : ∀ b, ∀ x ∈ xs, f b x = g b x) (b : β) : xs.foldlM f b = xs.foldlM g b := by
  induction xs generalizing b with
  | nil => rfl
  | cons x xs ih =>
    rw [foldlM_cons, foldlM_cons, h b x mem_cons_self]
    exact congrArg _ (funext fun b' => ih (fun b y hy => h b y (mem_cons_of_mem x hy)) b')

/-- Nested loops are one loop. -/
theorem foldlM_flatMap {α β γ : Type} (f : β → γ → Option β) (g : α → List γ) (xs : List α)
    (b : β) : (xs.flatMap g).foldlM f b = xs.foldlM (fun b x => (g x).foldlM f b) b := by
  induction xs generalizing b with
  | nil => rfl
  | cons x xs ih =>
    rw [flatMap_cons, foldlM_append, foldlM_cons]
    exact congrArg _ (funext fun b' => ih b')

/-- Rounds that do nothing can be left out. -/
theorem foldlM_filter {α β : Type} {f : β → α → Option β} {cond : α → Bool} {xs : List α}
    (hskip : ∀ b, ∀ x ∈ xs, cond x = false → f b x = some b) (b : β) :
    (xs.filter cond).foldlM f b = xs.foldlM f b := by
  induction xs generalizing b with
  | nil => rfl
  | cons x xs ih =>
    have ih := ih fun b y hy => hskip b y (mem_cons_of_mem x hy)
    rw [foldlM_cons]
    cases hc : cond x with
    | true =>
      rw [filter_cons_of_pos hc, foldlM_cons]
      exact congrArg _ (funext ih)
    | false =>
      rw [filter_cons_of_neg (by simp [hc]), hskip b x mem_cons_self hc]
      exact ih b

section Stores

variable {α β : Type} {slot : α → Nat} {val : α → β} {ps : List α}

/-- A loop of stores leaves alone what no round stores to. -/
theorem foldl_setSlot_off {i : Nat} (hi : ∀ p ∈ ps, slot p ≠ i) (m : Nat → β) :
    ps.foldl (fun m p => setSlot m (slot p) (val p)) m i = m i := by
  induction ps generalizing m with
  | nil => rfl
  | cons p ps ih =>
    rw [foldl_cons, ih fun q hq => hi q (mem_cons_of_mem p hq)]
    exact if_neg fun heq => hi p mem_cons_self heq.symm

/-- A loop of stores, where rounds that store to one slot store one value. -/
theorem foldl_setSlot_mem {p : α} (hp : p ∈ ps) (hsame : ∀ q ∈ ps, slot q = slot p → val q = val p)
    (m : Nat → β) : ps.foldl (fun m p => setSlot m (slot p) (val p)) m (slot p) = val p := by
  -- the last round that stores to the slot decides
  induction ps using List.reverseRecOn with
  | nil => cases hp
  | append_singleton ps q ih =>
    rw [foldl_append, foldl_cons, foldl_nil]
    by_cases hq : slot p = slot q
    · rw [hq]
      exact (if_pos rfl).trans (hsame q (by simp) hq.symm)
    · have hp' : p ∈ ps := by
        rcases mem_append.mp hp with hp | hp
        · exact hp
        · rw [mem_singleton.mp hp] at hq
          exact absurd rfl hq
      exact (if_neg hq).trans (ih hp' fun q' hq' => hsame q' (mem_append_left _ hq'))

/-- A loop of conditional stores, each to a slot of its own: the slots whose store is made
hold the new value, the others what they held. -/
theorem foldlM_writes {f : (Nat → β) → α → Option (Nat → β)} {cond : α → Bool}
    (hf : ∀ m, ∀ p ∈ ps, f m p = some (if cond p then setSlot m (slot p) (val p) else m))
    (hslot : ∀ p ∈ ps, ∀ q ∈ ps, slot p = slot q → p = q) (m : Nat → β) :
    ∃ m', ps.foldlM f m = some m' ∧ (∀ p ∈ ps, cond p = true → m' (slot p) = val p) ∧
      ∀ i, (∀ p ∈ ps, cond p = true → slot p ≠ i) → m' i = m i := by
  have hfold : ps.foldlM f m =
      some ((ps.filter cond).foldl (fun m p => setSlot m (slot p) (val p)) m) := by
    induction ps generalizing m with
    | nil => rfl
    | cons p ps ih =>
      rw [foldlM_cons, hf m p mem_cons_self]
      refine (ih (fun m q hq => hf m q (mem_cons_of_mem p hq)) (fun q hq q' hq' =>
        hslot q (mem_cons_of_mem p hq) q' (mem_cons_of_mem p hq')) _).trans ?_
      cases hc : cond p with
      | false => rw [filter_cons_of_neg (by simp [hc]), if_neg Bool.false_ne_true]
      | true => rw [filter_cons_of_pos hc, if_pos rfl, foldl_cons]
  refine ⟨_, hfold, fun p hp hc => ?_, fun i hi => ?_⟩
  · refine foldl_setSlot_mem (mem_filter.mpr ⟨hp, hc⟩) (fun q hq heq => ?_) m
    rw [hslot q (mem_of_mem_filter hq) p hp heq]
  · refine foldl_setSlot_off (fun p hp => ?_) m
    exact hi p (mem_of_mem_filter hp) (mem_filter.mp hp).2

end Stores

/-- The elements of a rectangle, row by row, whose coordinates pass a test each. -/
theorem filter_rows {α β : Type} (xs : List α) (ys : List β) (p : α → Prop) (q : β → Prop)
    [DecidablePred p] [DecidablePred q] :
    (ys.flatMap fun y => xs.map fun x => (x, y)).filter (fun e => decide (p e.1 ∧ q e.2)) =
      (ys.filter (fun y => decide (q y))).flatMap fun y =>
        (xs.filter (fun x => decide (p x))).map fun x => (x, y) := by
  induction ys with
  | nil => rfl
  | cons y ys ih =>
    rw [flatMap_cons, filter_append, ih, filter_map]
    by_cases hy : q y
    · rw [filter_cons_of_pos (by simpa using hy), flatMap_cons]
      simp [Function.comp_def, hy]
    · rw [filter_cons_of_neg (by simpa using hy)]
      simp [Function.comp_def, hy]

/-- An element inside the rectangle lies inside the array. -/
theorem rowMajor_bounds {w h x y : Int} (hx : 0 ≤ x) (hxw : x < w) (hy : 0 ≤ y) (hyh : y < h) :
    0 ≤ w * y + x ∧ w * y + x < w * h := by
  have hw : 0 ≤ w := Int.le_trans hx (Int.le_of_lt hxw)
  refine ⟨Int.add_nonneg (Int.mul_nonneg hw hy) hx, ?_⟩
  calc w * y + x < w * y + w := Int.add_lt_add_left hxw _
    _ = w * (y + 1) := by rw [Int.mul_add, Int.mul_one]
    _ ≤ w * h := Int.mul_le_mul_of_nonneg_left hyh hw

/-- The place of an element of the rectangle tells its column and its row. -/
theorem rowMajor_divMod {w x y : Int} (hx : 0 ≤ x) (hxw : x < w) :
    (w * y + x) % w = x ∧ (w * y + x) / w = y := by
  have hw : w ≠ 0 := by omega
  constructor
  · rw [Int.add_comm, Int.add_mul_emod_self_left, Int.emod_eq_of_lt hx hxw]
  · rw [Int.add_comm, Int.add_mul_ediv_left _ _ hw, Int.ediv_eq_zero_of_lt hx hxw, Int.zero_add]

/-- Two elements of the rectangle lie at different places. -/
theorem rowMajor_inj {w x y x' y' : Int} (hx : 0 ≤ x) (hxw : x < w) (hx' : 0 ≤ x') (hxw' : x' < w)
    (heq : w * y + x = w * y' + x') : x = x' ∧ y = y' := by
  obtain ⟨hmod, hdiv⟩ := rowMajor_divMod (y := y) hx hxw
  obtain ⟨hmod', hdiv'⟩ := rowMajor_divMod (y := y') hx' hxw'
  rw [heq] at hmod hdiv
  exact ⟨hmod.symm.trans hmod', hdiv.symm.trans hdiv'⟩

end UnagiOs
