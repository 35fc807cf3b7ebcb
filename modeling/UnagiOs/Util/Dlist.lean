import UnagiOs.Theory.Ring

/-!
# The list primitives (util/dlist.c, util/dlist.h)

`DLIST` is embedded in chunk headers and in timers, so the four primitives are
written once over any `Links` and used at both. Every assignment of the source
is one link write, in the source's order.

The specifications are stated on rings: `dlistInsertAfter_ring` and
`dlistInsertBefore_ring` splice one ring into another, `dlistRemove_ring` takes
one node out. Each comes with its frame (links of nodes outside the rings) and
with a `_preserves` rule for the state outside the links.
-/

namespace UnagiOs

open List

universe u v

open Links

/-- `DLIST`. -/
structure DLIST (α : Type) where
  next : α
  prev : α
deriving DecidableEq

section Model

variable {σ : Type u} {α : Type v} (L : Links σ α)

/-- `dlist_init`. -/
def dlistInit (s : σ) (d : α) : σ :=
  let s := L.setNext s d d
  L.setPrev s d d

/-- `dlist_insert_after`. -/
def dlistInsertAfter (s : σ) (d0 dnewA : α) : σ :=
  let d1 := L.next s d0
  let dnewZ := L.prev s dnewA
  let s := L.setNext s d0 dnewA
  let s := L.setPrev s dnewA d0
  let s := L.setNext s dnewZ d1
  L.setPrev s d1 dnewZ

/-- `dlist_insert_before`. -/
def dlistInsertBefore (s : σ) (d0 dnewA : α) : σ :=
  let d999 := L.prev s d0
  let dnewZ := L.prev s dnewA
  let s := L.setPrev s d0 dnewZ
  let s := L.setNext s dnewZ d0
  let s := L.setPrev s dnewA d999
  L.setNext s d999 dnewA

/-- `dlist_remove`. -/
def dlistRemove (s : σ) (node : α) : σ :=
  let d0 := L.prev s node
  let d2 := L.next s node
  let s := L.setPrev s node node
  let s := L.setNext s node node
  let s := L.setNext s d0 d2
  L.setPrev s d2 d0

/-- `list_for_each_entry` with a body that leaves the loop at the first node
meeting `p`, and does not touch the list before that. The walk is at `pos`;
`none` when it outlives its fuel, `some none` when it is back at the head. -/
def listForEachEntry [DecidableEq α] (s : σ) (head : α) (p : α → Bool) :
    Nat → α → Option (Option α)
  | 0, _ => none
  | fuel + 1, pos =>
    if pos = head then some none
    else if p pos then some (some pos)
    else listForEachEntry s head p fuel (L.next s pos)

end Model

variable {σ : Type u} {α : Type v} [DecidableEq α] {L : Links σ α} {D : α → Prop} {s : σ}

section Rings

variable {d0 a x y : α} (hL : L.Lawful D)
include hL

/-! ## The links after each primitive -/

theorem dlistInit_next {d : α} (hd : D d) (hy : D y) :
    L.next (dlistInit L s d) y = if y = d then d else L.next s y := by
  rw [dlistInit, hL.next_setPrev _ _ hd hy, hL.next_setNext _ _ hd hy]

theorem dlistInit_prev {d : α} (hd : D d) (hy : D y) :
    L.prev (dlistInit L s d) y = if y = d then d else L.prev s y := by
  rw [dlistInit, hL.prev_setPrev _ _ hd hy, hL.prev_setNext _ _ hd hy]

section Splice

variable (h0 : D d0) (ha : D a) (hz : D (L.prev s a)) (hy : D y)
include h0 ha hz hy

theorem dlistInsertAfter_next (h1 : D (L.next s d0)) :
    L.next (dlistInsertAfter L s d0 a) y =
      if y = L.prev s a then L.next s d0 else if y = d0 then a else L.next s y := by
  rw [dlistInsertAfter, hL.next_setPrev _ _ h1 hy, hL.next_setNext _ _ hz hy,
    hL.next_setPrev _ _ ha hy, hL.next_setNext _ _ h0 hy]

theorem dlistInsertAfter_prev (h1 : D (L.next s d0)) :
    L.prev (dlistInsertAfter L s d0 a) y =
      if y = L.next s d0 then L.prev s a else if y = a then d0 else L.prev s y := by
  rw [dlistInsertAfter, hL.prev_setPrev _ _ h1 hy, hL.prev_setNext _ _ hz hy,
    hL.prev_setPrev _ _ ha hy, hL.prev_setNext _ _ h0 hy]

theorem dlistInsertBefore_next (h9 : D (L.prev s d0)) :
    L.next (dlistInsertBefore L s d0 a) y =
      if y = L.prev s d0 then a else if y = L.prev s a then d0 else L.next s y := by
  rw [dlistInsertBefore, hL.next_setNext _ _ h9 hy, hL.next_setPrev _ _ ha hy,
    hL.next_setNext _ _ hz hy, hL.next_setPrev _ _ h0 hy]

theorem dlistInsertBefore_prev (h9 : D (L.prev s d0)) :
    L.prev (dlistInsertBefore L s d0 a) y =
      if y = a then L.prev s d0 else if y = d0 then L.prev s a else L.prev s y := by
  rw [dlistInsertBefore, hL.prev_setNext _ _ h9 hy, hL.prev_setPrev _ _ ha hy,
    hL.prev_setNext _ _ hz hy, hL.prev_setPrev _ _ h0 hy]

/-- Inserting before `d0` links the nodes as inserting after its predecessor does. -/
theorem dlistInsertBefore_links (h9 : D (L.prev s d0)) (hn : L.next s (L.prev s d0) = d0)
    (hda : d0 ≠ a) (hlast : L.prev s d0 ≠ L.prev s a) :
    L.SameAt (dlistInsertAfter L s (L.prev s d0) a) (dlistInsertBefore L s d0 a) y := by
  have h1 : D (L.next s (L.prev s d0)) := by rwa [hn]
  rw [SameAt, dlistInsertBefore_next hL h0 ha hz hy h9, dlistInsertBefore_prev hL h0 ha hz hy h9,
    dlistInsertAfter_next hL h9 ha hz hy h1, dlistInsertAfter_prev hL h9 ha hz hy h1, hn]
  constructor
  · by_cases hy9 : y = L.prev s d0
    · rw [if_pos hy9, if_neg (hy9 ▸ hlast), if_pos hy9]
    · rw [if_neg hy9, if_neg hy9]
  · by_cases hya : y = a
    · rw [if_pos hya, if_neg (hya ▸ hda.symm), if_pos hya]
    · rw [if_neg hya, if_neg hya]

end Splice

section Cut

variable (hx : D x) (h0 : D (L.prev s x)) (h2 : D (L.next s x)) (hy : D y)
include hx h0 h2 hy

theorem dlistRemove_next :
    L.next (dlistRemove L s x) y =
      if y = L.prev s x then L.next s x else if y = x then x else L.next s y := by
  rw [dlistRemove, hL.next_setPrev _ _ h2 hy, hL.next_setNext _ _ h0 hy,
    hL.next_setNext _ _ hx hy, hL.next_setPrev _ _ hx hy]

theorem dlistRemove_prev :
    L.prev (dlistRemove L s x) y =
      if y = L.next s x then L.prev s x else if y = x then x else L.prev s y := by
  rw [dlistRemove, hL.prev_setPrev _ _ h2 hy, hL.prev_setNext _ _ h0 hy,
    hL.prev_setNext _ _ hx hy, hL.prev_setPrev _ _ hx hy]

end Cut

/-! ## Rings -/

section Insert

variable {ds as : List α} (hd : L.Ring s d0 ds) (ha : L.Ring s a as)
  (hnd : (d0 :: ds ++ a :: as).Nodup) (hD : ∀ y ∈ d0 :: ds ++ a :: as, D y)
include hd ha hnd hD

/-- **`dlist_insert_after`** splices the ring of `a` into the ring of `d0`,
right after `d0`. -/
theorem dlistInsertAfter_ring :
    L.Ring (dlistInsertAfter L s d0 a) d0 (a :: as ++ ds) := by
  have hD0 : ∀ y ∈ d0 :: ds, D y := fun y hy => hD y (mem_append_left _ hy)
  have hDa : ∀ y ∈ a :: as, D y := fun y hy => hD y (mem_append_right _ hy)
  obtain ⟨hndd, hnda, hne⟩ := nodup_append.mp hnd
  have h1 := hd.next_closed (y := d0) mem_cons_self
  have hz := ha.prev_closed (y := a) mem_cons_self
  have hnext : ∀ y, D y → _ := fun y hy => dlistInsertAfter_next hL (hD0 _ mem_cons_self)
    (hDa _ mem_cons_self) (hDa _ hz) hy (hD0 _ h1)
  have hprev : ∀ y, D y → _ := fun y hy => dlistInsertAfter_prev hL (hD0 _ mem_cons_self)
    (hDa _ mem_cons_self) (hDa _ hz) hy (hD0 _ h1)
  have hafter : ∀ y, y ∈ ds ++ [d0] ↔ y ∈ d0 :: ds := fun y =>
    (perm_append_singleton d0 ds).mem_iff
  -- the spliced-in ring, opened before `a`, and then the host ring, opened after `d0`
  have hloop : L.Path (dlistInsertAfter L s d0 a) (a :: as ++ (ds ++ [d0])) := by
    refine path_rejoin ha.path_before hd.path_after hnda
      ((perm_append_singleton d0 ds).nodup_iff.mpr hndd) ha.getLast?_head hd.head?_head
      ?_ ?_ ?_ ?_ ?_ ?_
    · intro y hy hyz
      rw [hnext y (hDa y hy), if_neg hyz, if_neg (hne d0 mem_cons_self y hy).symm]
    · intro y hy
      have hya : y ∈ a :: as := mem_cons_of_mem a hy
      have hyna : y ≠ a := fun heq => (nodup_cons.mp hnda).1 (heq ▸ hy)
      rw [hprev y (hDa y hya), if_neg (hne _ h1 y hya).symm, if_neg hyna]
    · intro y hy
      have hyd : y ∈ d0 :: ds := mem_cons_of_mem d0 hy
      have hy0 : y ≠ d0 := fun heq => (nodup_cons.mp hndd).1 (heq ▸ hy)
      rw [hnext y (hD0 y hyd), if_neg (hne y hyd _ hz), if_neg hy0]
    · intro y hy hy1
      have hyd := (hafter y).mp hy
      rw [hprev y (hD0 y hyd), if_neg hy1, if_neg (hne y hyd a mem_cons_self)]
    · rw [hnext _ (hDa _ hz), if_pos rfl]
    · rw [hprev _ (hD0 _ h1), if_pos rfl]
  show L.Path _ (d0 :: (a :: as ++ ds ++ [d0]))
  rw [append_assoc]
  refine ⟨?_, ?_, hloop⟩
  · rw [hnext d0 (hD0 _ mem_cons_self), if_neg (hne d0 mem_cons_self _ hz), if_pos rfl]
  · rw [hprev a (hDa _ mem_cons_self), if_neg (hne _ h1 a mem_cons_self).symm,
      if_pos rfl]

/-- **`dlist_insert_before`** splices the ring of `a` into the ring of `d0`,
right before `d0`. -/
theorem dlistInsertBefore_ring :
    L.Ring (dlistInsertBefore L s d0 a) d0 (ds ++ a :: as) := by
  have hD0 : ∀ y ∈ d0 :: ds, D y := fun y hy => hD y (mem_append_left _ hy)
  have hDa : ∀ y ∈ a :: as, D y := fun y hy => hD y (mem_append_right _ hy)
  have hne : ∀ y ∈ d0 :: ds, ∀ y' ∈ a :: as, y ≠ y' :=
    (nodup_append.mp hnd).2.2
  have h9 := hd.prev_closed (y := d0) mem_cons_self
  have hz := ha.prev_closed (y := a) mem_cons_self
  have hlinks : ∀ y, D y → _ := fun y hy => dlistInsertBefore_links hL
    (hD0 _ mem_cons_self) (hDa _ mem_cons_self) (hDa _ hz) hy (hD0 _ h9)
    hd.next_prev_head (hne _ mem_cons_self _ mem_cons_self) (hne _ h9 _ hz)
  -- the circle of `d0`, read from its predecessor
  have hring : L.Ring (dlistInsertAfter L s (L.prev s d0) a) d0 (ds ++ a :: as) := by
    rcases eq_nil_or_concat ds with rfl | ⟨l, p, rfl⟩
    · rw [(ring_nil.mp hd).2]
      simpa using dlistInsertAfter_ring hL hd ha hnd hD
    · rw [concat_eq_append] at hd hnd hD ⊢
      rw [hd.prev_head]
      have hrot : L.Ring s p (d0 :: l) := (ring_rotate d0 p l []).mp hd
      have hperm : (p :: d0 :: l).Perm (d0 :: (l ++ [p])) :=
        (List.Perm.swap d0 p l).trans
          (List.Perm.cons d0 (perm_append_singleton p l).symm)
      have hins := dlistInsertAfter_ring hL hrot ha
        ((hperm.append_right (a :: as)).nodup_iff.mpr hnd)
        (fun y hy => hD y ((hperm.append_right (a :: as)).mem_iff.mp hy))
      have hback := (ring_rotate p d0 (a :: as) l).mp hins
      simpa using hback
  exact hring.congr fun y hy => hlinks y (hD y hy)

end Insert

/-- **`dlist_remove`** takes a node out of its ring and leaves it alone. -/
theorem dlistRemove_ring {h : α} {l₁ l₂ : List α}
    (hr : L.Ring s h (l₁ ++ x :: l₂)) (hnd : (h :: (l₁ ++ x :: l₂)).Nodup)
    (hD : ∀ y ∈ h :: (l₁ ++ x :: l₂), D y) :
    L.Ring (dlistRemove L s x) h (l₁ ++ l₂) ∧ L.Ring (dlistRemove L s x) x [] := by
  have hcut : L.Path s ((h :: l₁) ++ [x] ++ (l₂ ++ [h])) := by simpa [Links.Ring] using hr
  obtain ⟨hnd1, hnd2, hdisj⟩ := nodup_append.mp (show (h :: l₁ ++ x :: l₂).Nodup from hnd)
  have hperm : (l₂ ++ [h]).Perm (h :: l₂) := perm_append_singleton h l₂
  have hmem : ∀ y, y ∈ h :: l₁ ∨ y ∈ l₂ ++ [h] ∨ y = x → D y := by
    intro y hy
    apply hD
    simp only [mem_cons, mem_append, not_mem_nil] at hy ⊢
    tauto
  have hx1 : ∀ y ∈ h :: l₁, y ≠ x := fun y hy => hdisj y hy x mem_cons_self
  have hx2 : ∀ y ∈ l₂ ++ [h], y ≠ x := by
    intro y hy
    rcases mem_cons.mp (hperm.mem_iff.mp hy) with rfl | hy
    · exact hx1 y mem_cons_self
    · exact fun heq => (nodup_cons.mp hnd2).1 (heq ▸ hy)
  have h0 : L.prev s x ∈ h :: l₁ := mem_of_getLast? hr.getLast?_mem
  have h2 : L.next s x ∈ l₂ ++ [h] := mem_of_head? hr.head?_mem
  have hDx := hmem x (.inr (.inr rfl))
  have hnext : ∀ y, D y → _ := fun y =>
    dlistRemove_next hL hDx (hmem _ (.inl h0)) (hmem _ (.inr (.inl h2))) (y := y)
  have hprev : ∀ y, D y → _ := fun y =>
    dlistRemove_prev hL hDx (hmem _ (.inl h0)) (hmem _ (.inr (.inl h2))) (y := y)
  constructor
  · -- the ring up to `x`, and then the ring from behind `x` on
    have hloop : L.Path (dlistRemove L s x) (h :: l₁ ++ (l₂ ++ [h])) := by
      refine path_rejoin hcut.left_of_append.left_of_append hcut.right_of_append hnd1 ?_
        hr.getLast?_mem hr.head?_mem ?_ ?_ ?_ ?_ ?_ ?_
      · rw [hperm.nodup_iff, nodup_cons]
        exact ⟨fun hh => hdisj h mem_cons_self h (mem_cons_of_mem x hh) rfl,
          (nodup_cons.mp hnd2).2⟩
      · intro y hy hy0
        rw [hnext y (hmem y (.inl hy)), if_neg hy0, if_neg (hx1 y hy)]
      · intro y hy
        have hy1 : y ∈ h :: l₁ := mem_cons_of_mem h hy
        have hy2 : y ≠ L.next s x := by
          intro heq
          rcases mem_cons.mp (hperm.mem_iff.mp h2) with hh | hm
          · exact (nodup_cons.mp hnd1).1 (hh ▸ heq ▸ hy)
          · exact hdisj y hy1 _ (mem_cons_of_mem x hm) heq
        rw [hprev y (hmem y (.inl hy1)), if_neg hy2, if_neg (hx1 y hy1)]
      · intro y hy
        have hy2 : y ∈ l₂ ++ [h] := mem_append_left _ hy
        have hy0 : y ≠ L.prev s x := (hdisj _ h0 y (mem_cons_of_mem x hy)).symm
        rw [hnext y (hmem y (.inr (.inl hy2))), if_neg hy0, if_neg (hx2 y hy2)]
      · intro y hy hy2
        rw [hprev y (hmem y (.inr (.inl hy))), if_neg hy2, if_neg (hx2 y hy)]
      · rw [hnext _ (hmem _ (.inl h0)), if_pos rfl]
      · rw [hprev _ (hmem _ (.inr (.inl h2))), if_pos rfl]
    rw [← append_assoc] at hloop
    exact hloop
  · rw [ring_nil, hnext x hDx, hprev x hDx, if_neg (hx1 _ h0).symm, if_neg (hx2 _ h2).symm,
      if_pos rfl]
    exact ⟨rfl, if_pos rfl⟩

section Member

variable {h : α} {l₁ l₂ as : List α} (hd : L.Ring s h (l₁ ++ d0 :: l₂)) (ha : L.Ring s a as)
  (hnd : (h :: (l₁ ++ d0 :: l₂) ++ a :: as).Nodup)
  (hD : ∀ y ∈ h :: (l₁ ++ d0 :: l₂) ++ a :: as, D y)
include hd hnd hD

omit hL [DecidableEq α] in
/-- The ring read from the member on. -/
theorem ring_from_member : L.Ring s d0 (l₂ ++ h :: l₁) ∧
    (d0 :: (l₂ ++ h :: l₁) ++ a :: as).Nodup ∧ ∀ y ∈ d0 :: (l₂ ++ h :: l₁) ++ a :: as, D y := by
  have hperm : (d0 :: (l₂ ++ h :: l₁) ++ a :: as).Perm (h :: (l₁ ++ d0 :: l₂) ++ a :: as) :=
    Perm.append_right _ (@perm_append_comm _ (d0 :: l₂) (h :: l₁))
  exact ⟨(ring_rotate h d0 l₁ l₂).mp hd, hperm.nodup_iff.mpr hnd,
    fun y hy => hD y (hperm.mem_iff.mp hy)⟩

include ha

/-- `dlist_insert_after` at a member of a ring. -/
theorem dlistInsertAfter_member :
    L.Ring (dlistInsertAfter L s d0 a) h (l₁ ++ d0 :: (a :: as ++ l₂)) := by
  obtain ⟨hd', hnd', hD'⟩ := ring_from_member hd hnd hD
  have hins := dlistInsertAfter_ring hL hd' ha hnd' hD'
  rw [← append_assoc] at hins
  exact (ring_rotate d0 h _ l₁).mp hins

/-- `dlist_insert_before` at a member of a ring. -/
theorem dlistInsertBefore_member :
    L.Ring (dlistInsertBefore L s d0 a) h (l₁ ++ a :: as ++ d0 :: l₂) := by
  obtain ⟨hd', hnd', hD'⟩ := ring_from_member hd hnd hD
  have hins := dlistInsertBefore_ring hL hd' ha hnd' hD'
  rw [append_assoc] at hins
  exact (ring_rotate d0 h l₂ (l₁ ++ a :: as)).mp hins

end Member

/-- Removing a node that is alone changes none of the links. -/
theorem dlistRemove_alone (hr : L.Ring s x []) (hx : D x) (hy : D y) :
    L.SameAt s (dlistRemove L s x) y := by
  obtain ⟨hn, hp⟩ := ring_nil.mp hr
  rw [SameAt, dlistRemove_next hL hx (by rw [hp]; exact hx) (by rw [hn]; exact hx) hy,
    dlistRemove_prev hL hx (by rw [hp]; exact hx) (by rw [hn]; exact hx) hy, hn, hp]
  by_cases hyx : y = x
  · rw [if_pos hyx, hyx, hn, hp, if_pos rfl]
    exact ⟨rfl, rfl⟩
  · simp only [if_neg hyx, and_self]

end Rings

/-! ## The state outside the links

A predicate that no link write to a node of `D` can change survives all the
primitives. -/

section Preserves

variable {P : σ → Prop} (hN : ∀ s x v, D x → P s → P (L.setNext s x v))
  (hP : ∀ s x v, D x → P s → P (L.setPrev s x v))
include hN hP

omit [DecidableEq α] in
theorem dlistInit_preserves {d : α} (hd : D d) (h : P s) : P (dlistInit L s d) :=
  hP _ _ _ hd (hN _ _ _ hd h)

omit [DecidableEq α] in
theorem dlistInsertAfter_preserves {d0 a : α} (h0 : D d0) (ha : D a) (h1 : D (L.next s d0))
    (hz : D (L.prev s a)) (h : P s) : P (dlistInsertAfter L s d0 a) :=
  hP _ _ _ h1 (hN _ _ _ hz (hP _ _ _ ha (hN _ _ _ h0 h)))

omit [DecidableEq α] in
theorem dlistInsertBefore_preserves {d0 a : α} (h0 : D d0) (ha : D a) (h9 : D (L.prev s d0))
    (hz : D (L.prev s a)) (h : P s) : P (dlistInsertBefore L s d0 a) :=
  hN _ _ _ h9 (hP _ _ _ ha (hN _ _ _ hz (hP _ _ _ h0 h)))

omit [DecidableEq α] in
theorem dlistRemove_preserves {x : α} (hx : D x) (h0 : D (L.prev s x)) (h2 : D (L.next s x))
    (h : P s) : P (dlistRemove L s x) :=
  hP _ _ _ h2 (hN _ _ _ h0 (hN _ _ _ hx (hP _ _ _ hx h)))

end Preserves

/-! ## Frames: the links of the other nodes -/

section Frame

variable {h d0 a x y : α} {l as : List α} (hL : L.Lawful D)
include hL

theorem Links.Lawful.sameAt_setNext (hy : D y) (s' : σ) (x v : α) (hx : D x ∧ y ≠ x)
    (hs : L.SameAt s s' y) : L.SameAt s (L.setNext s' x v) y := by
  rw [SameAt, hL.next_setNext _ _ hx.1 hy, hL.prev_setNext _ _ hx.1 hy, if_neg hx.2]
  exact hs

theorem Links.Lawful.sameAt_setPrev (hy : D y) (s' : σ) (x v : α) (hx : D x ∧ y ≠ x)
    (hs : L.SameAt s s' y) : L.SameAt s (L.setPrev s' x v) y := by
  rw [SameAt, hL.next_setPrev _ _ hx.1 hy, hL.prev_setPrev _ _ hx.1 hy, if_neg hx.2]
  exact hs

variable (hr : L.Ring s h l) (hD : ∀ z ∈ h :: l, D z) (hy : D y) (hyl : y ∉ h :: l)
include hr hD hy hyl

omit hL hr hy [DecidableEq α] in
theorem other_node : ∀ z ∈ h :: l, D z ∧ y ≠ z :=
  fun z hz => ⟨hD z hz, fun he => hyl (he ▸ hz)⟩

theorem dlistRemove_frame (hx : x ∈ h :: l) : L.SameAt s (dlistRemove L s x) y := by
  have hl := other_node hD hyl
  exact dlistRemove_preserves (hL.sameAt_setNext hy) (hL.sameAt_setPrev hy) (hl _ hx)
    (hl _ (hr.prev_closed hx)) (hl _ (hr.next_closed hx)) ⟨rfl, rfl⟩

theorem dlistInsertAfter_frame (hd : d0 ∈ h :: l) (ha : L.Ring s a as) (hDa : ∀ z ∈ a :: as, D z)
    (hya : y ∉ a :: as) : L.SameAt s (dlistInsertAfter L s d0 a) y := by
  have hl := other_node hD hyl
  have hla := other_node hDa hya
  exact dlistInsertAfter_preserves (hL.sameAt_setNext hy) (hL.sameAt_setPrev hy) (hl _ hd)
    (hla a mem_cons_self) (hl _ (hr.next_closed hd))
    (hla _ (ha.prev_closed mem_cons_self)) ⟨rfl, rfl⟩

theorem dlistInsertBefore_frame (hd : d0 ∈ h :: l) (ha : L.Ring s a as)
    (hDa : ∀ z ∈ a :: as, D z) (hya : y ∉ a :: as) :
    L.SameAt s (dlistInsertBefore L s d0 a) y := by
  have hl := other_node hD hyl
  have hla := other_node hDa hya
  exact dlistInsertBefore_preserves (hL.sameAt_setNext hy) (hL.sameAt_setPrev hy) (hl _ hd)
    (hla a mem_cons_self) (hl _ (hr.prev_closed hd))
    (hla _ (ha.prev_closed mem_cons_self)) ⟨rfl, rfl⟩

end Frame

/-! ## Walking a ring -/

/-- **`list_for_each_entry`** visits the members of the ring in order, each
once and never the head, and stops at the first one that meets `p`. -/
theorem listForEachEntry_ring {head : α} {l : List α} (p : α → Bool) (hr : L.Ring s head l)
    (hh : head ∉ l) (fuel : Nat) (hf : l.length < fuel) :
    listForEachEntry L s head p fuel (L.next s head) = some (l.find? p) := by
  refine hr.walk_rule (C := fun f k y => listForEachEntry L s head p f y = some (k.find? p)) hh
    (fun _ => if_pos rfl) ?_ hf
  intro f y k hy ih
  rw [listForEachEntry, if_neg hy, find?_cons]
  cases p y with
  | true => rfl
  | false => exact ih

end UnagiOs
