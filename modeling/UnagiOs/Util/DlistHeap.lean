import UnagiOs.Util.Dlist

/-!
# Heaps of list nodes (util/dlist.c, util/dlist.h)

A heap of `DLIST` nodes is cut up into circular lists. `Partitioned heap rings` says into which: the
members of each are linked both ways, in order and around, and no node is in two of them or twice in
one. An empty list stands for no ring.

`dlist_partition` has all primitives as operations on the partition: an insertion makes one ring of
two, a removal two of one, and no other node of the heap is written.
-/

namespace UnagiOs

open List

section Model

variable {α : Type} [DecidableEq α]

/-- The links of the nodes of a heap. -/
def heapLinks : Links (α → DLIST α) α where
  next heap x := (heap x).next
  prev heap x := (heap x).prev
  setNext heap x v := Function.update heap x { heap x with next := v }
  setPrev heap x v := Function.update heap x { heap x with prev := v }

/-- `list_for_each_entry` with a body that does not write to the list, as what it makes of `b`. The
loop is at `pos`; `none` when it outlives its fuel. -/
def listForEach {β : Type} (heap : α → DLIST α) (head : α) (body : β → α → β) :
    Nat → α → β → Option β
  | 0, _, _ => none
  | fuel + 1, pos, b =>
    if pos = head then some b else listForEach heap head body fuel (heap pos).next (body b pos)

end Model

variable {α : Type} [DecidableEq α] {heap heap' : α → DLIST α} {rest : List (List α)}

theorem heapLinks_lawful : (heapLinks (α := α)).Lawful fun _ => True where
  next_setNext heap x y v _ _ := by
    show (Function.update heap x { heap x with next := v } y).next = _
    rw [Function.update_apply, apply_ite DLIST.next]
    rfl
  next_setPrev heap x y v _ _ := by
    show (Function.update heap x { heap x with prev := v } y).next = (heap y).next
    rw [Function.update_apply]
    split
    · next hy => rw [hy]
    · rfl
  prev_setPrev heap x y v _ _ := by
    show (Function.update heap x { heap x with prev := v } y).prev = _
    rw [Function.update_apply, apply_ite DLIST.prev]
    rfl
  prev_setNext heap x y v _ _ := by
    show (Function.update heap x { heap x with next := v } y).prev = (heap y).prev
    rw [Function.update_apply]
    split
    · next hy => rw [hy]
    · rfl

/-- The two links are all of a node. -/
theorem node_eq {y : α} (h : heapLinks.SameAt heap heap' y) : heap' y = heap y := by
  show DLIST.mk (heapLinks.next heap' y) (heapLinks.prev heap' y) =
    DLIST.mk (heapLinks.next heap y) (heapLinks.prev heap y)
  rw [h.1, h.2]

theorem sameAt_of_eq {y : α} (h : heap' y = heap y) : heapLinks.SameAt heap heap' y :=
  ⟨congrArg DLIST.next h, congrArg DLIST.prev h⟩

/-! ## The partition -/

/-- The heap consists of these rings. -/
structure Partitioned (heap : α → DLIST α) (rings : List (List α)) : Prop where
  nodup : rings.flatten.Nodup
  ring : ∀ x l, x :: l ∈ rings → heapLinks.Ring heap x l

/-- Some rings are made anew from the nodes of others, and the rest is left alone. -/
theorem Partitioned.replace (old new : List (List α)) (h : Partitioned heap (old ++ rest))
    (hperm : new.flatten.Perm old.flatten)
    (hnew : ∀ x l, x :: l ∈ new → heapLinks.Ring heap' x l)
    (hframe : ∀ y, y ∉ old.flatten → heap' y = heap y) : Partitioned heap' (new ++ rest) := by
  have hnodup := h.nodup
  rw [flatten_append] at hnodup
  constructor
  · rw [flatten_append, (hperm.append_right rest.flatten).nodup_iff]
    exact hnodup
  · intro x l hmem
    rcases mem_append.mp hmem with hmem | hmem
    · exact hnew x l hmem
    · -- the nodes of the other rings are not among those written
      refine (h.ring x l (mem_append_right _ hmem)).congr fun y hy =>
        sameAt_of_eq (hframe y fun hold => ?_)
      exact (nodup_append.mp hnodup).2.2 y hold y (mem_flatten.mpr ⟨_, hmem, hy⟩) rfl

section Primitives

variable {d0 a x : α} {ds as l₁ l₂ : List α}

theorem Partitioned.two (h : Partitioned heap ((d0 :: ds) :: (a :: as) :: rest)) :
    heapLinks.Ring heap d0 ds ∧ heapLinks.Ring heap a as ∧ (d0 :: ds ++ a :: as).Nodup := by
  refine ⟨h.ring d0 ds mem_cons_self,
    h.ring a as (mem_cons_of_mem _ mem_cons_self), ?_⟩
  have hnodup : (d0 :: ds ++ (a :: as ++ rest.flatten)).Nodup := h.nodup
  rw [← append_assoc] at hnodup
  exact (nodup_append.mp hnodup).1

theorem insertAfter_frame (h : Partitioned heap ((d0 :: ds) :: (a :: as) :: rest)) {y : α}
    (hy : y ∉ d0 :: ds ++ a :: as) : dlistInsertAfter heapLinks heap d0 a y = heap y := by
  obtain ⟨hd, ha, -⟩ := h.two
  rw [mem_append, not_or] at hy
  exact node_eq (dlistInsertAfter_frame heapLinks_lawful hd (fun _ _ => trivial) trivial hy.1
    mem_cons_self ha (fun _ _ => trivial) hy.2)

theorem insertBefore_frame (h : Partitioned heap ((d0 :: ds) :: (a :: as) :: rest)) {y : α}
    (hy : y ∉ d0 :: ds ++ a :: as) : dlistInsertBefore heapLinks heap d0 a y = heap y := by
  obtain ⟨hd, ha, -⟩ := h.two
  rw [mem_append, not_or] at hy
  exact node_eq (dlistInsertBefore_frame heapLinks_lawful hd (fun _ _ => trivial) trivial hy.1
    mem_cons_self ha (fun _ _ => trivial) hy.2)

/-- A ring that is not empty, read from its first node. -/
theorem Partitioned.head {r : List α} (h : Partitioned heap (r :: rest)) (hx : x ∈ r) :
    ∃ y l, r = y :: l ∧ heapLinks.Ring heap y l := by
  cases r with
  | nil => cases hx
  | cons y l => exact ⟨y, l, rfl, h.ring y l mem_cons_self⟩

theorem remove_frame (h : Partitioned heap ((l₁ ++ x :: l₂) :: rest)) {y : α}
    (hy : y ∉ l₁ ++ x :: l₂) : dlistRemove heapLinks heap x y = heap y := by
  have hx : x ∈ l₁ ++ x :: l₂ := mem_append_right _ mem_cons_self
  obtain ⟨z, l, hr, hring⟩ := h.head hx
  rw [hr] at hx hy
  exact node_eq (dlistRemove_frame heapLinks_lawful hring (fun _ _ => trivial) trivial hy hx)

/-- What is left of the ring, and the node that was removed. -/
theorem remove_rings (h : Partitioned heap ((l₁ ++ x :: l₂) :: rest)) :
    heapLinks.Ring (dlistRemove heapLinks heap x) x [] ∧
      ∀ y l, y :: l = l₁ ++ l₂ → heapLinks.Ring (dlistRemove heapLinks heap x) y l := by
  have hnodup : (l₁ ++ x :: l₂).Nodup := (nodup_append.mp h.nodup).1
  cases l₁ with
  | cons z l₁ =>
    obtain ⟨hleft, halone⟩ := dlistRemove_ring heapLinks_lawful
      (h.ring z (l₁ ++ x :: l₂) mem_cons_self) hnodup fun _ _ => trivial
    refine ⟨halone, fun y l hyl => ?_⟩
    cases hyl
    exact hleft
  | nil =>
    have hring : heapLinks.Ring heap x l₂ := h.ring x l₂ mem_cons_self
    cases l₂ with
    | nil =>
      -- a node that is alone
      refine ⟨hring.congr fun y _ => dlistRemove_alone heapLinks_lawful hring trivial trivial,
        fun y l hyl => ?_⟩
      cases hyl
    | cons z l₂ =>
      -- the ring is read from the node behind
      have hrot : heapLinks.Ring heap z (l₂ ++ [x]) := (Links.ring_rotate x z [] l₂).mp hring
      have hperm : (z :: (l₂ ++ [x])).Perm (x :: z :: l₂) :=
        perm_append_singleton x (z :: l₂)
      obtain ⟨hleft, halone⟩ := dlistRemove_ring heapLinks_lawful hrot
        (hperm.nodup_iff.mpr hnodup) fun _ _ => trivial
      rw [append_nil] at hleft
      refine ⟨halone, fun y l hyl => ?_⟩
      cases hyl
      exact hleft

theorem Partitioned.insertAfter (h : Partitioned heap ((d0 :: ds) :: (a :: as) :: rest)) :
    Partitioned (dlistInsertAfter heapLinks heap d0 a) ((d0 :: a :: as ++ ds) :: rest) := by
  obtain ⟨hd, ha, hnodup⟩ := h.two
  have hperm : (d0 :: a :: as ++ ds).Perm (d0 :: ds ++ a :: as) := perm_append_comm.cons d0
  refine Partitioned.replace [d0 :: ds, a :: as] [d0 :: a :: as ++ ds] h (by simpa using hperm)
    ?_ ?_
  · intro x l hmem
    cases mem_singleton.mp hmem
    exact dlistInsertAfter_ring heapLinks_lawful hd ha hnodup fun _ _ => trivial
  · intro y hy
    exact insertAfter_frame h (by simpa using hy)

theorem Partitioned.insertBefore (h : Partitioned heap ((d0 :: ds) :: (a :: as) :: rest)) :
    Partitioned (dlistInsertBefore heapLinks heap d0 a) ((d0 :: ds ++ a :: as) :: rest) := by
  obtain ⟨hd, ha, hnodup⟩ := h.two
  refine Partitioned.replace [d0 :: ds, a :: as] [d0 :: ds ++ a :: as] h (by simp) ?_ ?_
  · intro x l hmem
    cases mem_singleton.mp hmem
    exact dlistInsertBefore_ring heapLinks_lawful hd ha hnodup fun _ _ => trivial
  · intro y hy
    exact insertBefore_frame h (by simpa using hy)

theorem Partitioned.remove (h : Partitioned heap ((l₁ ++ x :: l₂) :: rest)) :
    Partitioned (dlistRemove heapLinks heap x) ([x] :: (l₁ ++ l₂) :: rest) := by
  obtain ⟨halone, hleft⟩ := remove_rings h
  have hperm : (x :: (l₁ ++ l₂)).Perm (l₁ ++ x :: l₂) := perm_middle.symm
  refine Partitioned.replace [l₁ ++ x :: l₂] [[x], l₁ ++ l₂] h (by simpa using hperm) ?_ ?_
  · intro y l hmem
    rcases mem_cons.mp hmem with heq | hmem
    · cases heq
      exact halone
    · exact hleft y l (mem_singleton.mp hmem)
  · intro y hy
    exact remove_frame h (by simpa using hy)

/-- A node that is in no ring. -/
theorem Partitioned.init (h : Partitioned heap rest) (hx : x ∉ rest.flatten) :
    Partitioned (dlistInit heapLinks heap x) ([x] :: rest) := by
  have hframe : ∀ y, y ≠ x → heapLinks.SameAt heap (dlistInit heapLinks heap x) y := by
    intro y hy
    rw [Links.SameAt, dlistInit_next heapLinks_lawful trivial trivial, if_neg hy,
      dlistInit_prev heapLinks_lawful trivial trivial, if_neg hy]
    exact ⟨rfl, rfl⟩
  constructor
  · exact nodup_cons.mpr ⟨hx, h.nodup⟩
  · intro y l hmem
    rcases mem_cons.mp hmem with heq | hmem
    · cases heq
      rw [Links.ring_nil, dlistInit_next heapLinks_lawful trivial trivial,
        dlistInit_prev heapLinks_lawful trivial trivial, if_pos rfl]
      exact ⟨rfl, if_pos rfl⟩
    · refine (h.ring y l hmem).congr fun z hz => hframe z fun heq => hx ?_
      rw [← heq]
      exact mem_flatten.mpr ⟨_, hmem, hz⟩

end Primitives

/-! ## Walking a ring -/

/-- **`list_for_each_entry`** runs its body on the members of the ring behind the head, in order. -/
theorem listForEach_ring {β : Type} {head : α} {l : List α} (body : β → α → β)
    (hr : heapLinks.Ring heap head l) (hh : head ∉ l) (fuel : Nat) (hf : l.length < fuel) (b : β) :
    listForEach heap head body fuel (heap head).next b = some (l.foldl body b) := by
  refine hr.walk_rule
    (C := fun f k y => ∀ b, listForEach heap head body f y b = some (k.foldl body b)) hh
    (fun _ _ => if_pos rfl) (fun f y k hy ih b => ?_) hf b
  rw [listForEach, if_neg hy]
  exact ih (body b y)

/-- **The list primitives** on a heap that is partitioned into rings. -/
theorem dlist_partition {α : Type} [DecidableEq α] (heap : α → DLIST α) (rest : List (List α)) :
    (∀ x, Partitioned heap rest → x ∉ rest.flatten →
      Partitioned (dlistInit heapLinks heap x) ([x] :: rest)) ∧
    (∀ d0 ds a as, Partitioned heap ((d0 :: ds) :: (a :: as) :: rest) →
      Partitioned (dlistInsertAfter heapLinks heap d0 a) ((d0 :: a :: as ++ ds) :: rest) ∧
      Partitioned (dlistInsertBefore heapLinks heap d0 a) ((d0 :: ds ++ a :: as) :: rest) ∧
      ∀ y, y ∉ d0 :: ds ++ a :: as → dlistInsertAfter heapLinks heap d0 a y = heap y ∧
        dlistInsertBefore heapLinks heap d0 a y = heap y) ∧
    (∀ l₁ x l₂, Partitioned heap ((l₁ ++ x :: l₂) :: rest) →
      Partitioned (dlistRemove heapLinks heap x) ([x] :: (l₁ ++ l₂) :: rest) ∧
      ∀ y, y ∉ l₁ ++ x :: l₂ → dlistRemove heapLinks heap x y = heap y) ∧
    ∀ head l, Partitioned heap ((head :: l) :: rest) → ∀ (β : Type) (body : β → α → β) (b : β),
      ∃ rounds, ∀ fuel ≥ rounds,
        listForEach heap head body fuel (heap head).next b = some (l.foldl body b) := by
  refine ⟨fun x h hx => h.init hx, fun d0 ds a as h => ⟨h.insertAfter, h.insertBefore, fun y hy =>
    ⟨insertAfter_frame h hy, insertBefore_frame h hy⟩⟩, fun l₁ x l₂ h => ⟨h.remove, fun y hy =>
    remove_frame h hy⟩, fun head l h β body b => ?_⟩
  have hnodup : (head :: l).Nodup := (nodup_append.mp h.nodup).1
  refine ⟨l.length + 1, fun fuel hfuel => ?_⟩
  exact listForEach_ring body (h.ring head l mem_cons_self) (nodup_cons.mp hnodup).1 fuel
    hfuel b

/-- Two nodes that are made one after the other and joined. -/
theorem dlist_partition_two :
    Partitioned (dlistInsertAfter heapLinks (dlistInit heapLinks (dlistInit heapLinks
      (fun _ => ⟨0, 0⟩) 1) 0) 0 1) [[0, 1]] := by
  have hnone : Partitioned (fun _ : Nat => (⟨0, 0⟩ : DLIST Nat)) [] :=
    ⟨nodup_nil, fun _ _ hmem => by cases hmem⟩
  have hone := (dlist_partition _ []).1 1 hnone (by decide)
  have htwo := (dlist_partition _ [[1]]).1 0 hone (by decide)
  exact ((dlist_partition _ []).2.1 0 [] 1 [] htwo).1

end UnagiOs
