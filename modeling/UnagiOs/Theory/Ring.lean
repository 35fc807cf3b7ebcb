import Mathlib.Data.List.Nodup
import Mathlib.Tactic.Tauto

/-!
# Intrusive circular doubly linked rings

Nodes carry their two links inside some larger state: a memory, an array of
records. `Links σ α` is the access to these links: two reads and two writes
for a node `x : α` of a state `s : σ`. `Lawful D` says that on the nodes of
`D` the links are separate cells; nodes that overlap in memory are kept out
of `D`.

- `Path s l`: neighbours in `l` are linked both ways.
- `Ring s x l`: the circle `x`, then the members `l`, then `x` again.

Surgery on a ring cuts it at a node and joins the ends elsewhere, so the kit
is: `path_append` (cut), `path_join` (join), `ring_rotate` (start the same
circle elsewhere) and `Path.congr` (a path only depends on its own links).
-/

namespace UnagiOs

open List

universe u v

/-- The two link fields of nodes `α` kept in a state `σ`. -/
structure Links (σ : Type u) (α : Type v) where
  next : σ → α → α
  prev : σ → α → α
  setNext : σ → α → α → σ
  setPrev : σ → α → α → σ

namespace Links

variable {σ : Type u} {α : Type v}

/-- On the nodes of `D` a link write changes that link and no other. -/
structure Lawful [DecidableEq α] (L : Links σ α) (D : α → Prop) : Prop where
  next_setNext : ∀ s {x y : α} (v : α), D x → D y →
    L.next (L.setNext s x v) y = if y = x then v else L.next s y
  next_setPrev : ∀ s {x y : α} (v : α), D x → D y →
    L.next (L.setPrev s x v) y = L.next s y
  prev_setPrev : ∀ s {x y : α} (v : α), D x → D y →
    L.prev (L.setPrev s x v) y = if y = x then v else L.prev s y
  prev_setNext : ∀ s {x y : α} (v : α), D x → D y →
    L.prev (L.setNext s x v) y = L.prev s y

variable (L : Links σ α)

/-- The links of `y` are the same in both states. -/
def SameAt (s s' : σ) (y : α) : Prop :=
  L.next s' y = L.next s y ∧ L.prev s' y = L.prev s y

/-- Neighbours in the list are linked both ways. -/
def Path (s : σ) : List α → Prop
  | x :: y :: l => L.next s x = y ∧ L.prev s y = x ∧ Path s (y :: l)
  | _ => True

/-- The circle through `x` with the further members `l`, in `next` order. -/
def Ring (s : σ) (x : α) (l : List α) : Prop :=
  L.Path s (x :: l ++ [x])

/-- The nodes met by following `next` from a node on, up to `x`. -/
def walk [DecidableEq α] (s : σ) (x : α) : Nat → α → List α
  | 0, _ => []
  | fuel + 1, y => if y = x then [] else y :: walk s x fuel (L.next s y)

variable {L} {s s' : σ}

/-! ## Paths -/

@[simp] theorem path_nil : L.Path s [] := trivial

@[simp] theorem path_singleton (x : α) : L.Path s [x] := trivial

theorem path_cons_cons {x y : α} {l : List α} :
    L.Path s (x :: y :: l) ↔ L.next s x = y ∧ L.prev s y = x ∧ L.Path s (y :: l) :=
  Iff.rfl

/-- A path through `x` is a path up to `x` and a path from `x`. -/
theorem path_append :
    ∀ (l₁ : List α) (x : α) (l₂ : List α),
      L.Path s (l₁ ++ x :: l₂) ↔ L.Path s (l₁ ++ [x]) ∧ L.Path s (x :: l₂)
  | [], _, _ => by simp
  | [y], x, l₂ => by
    show (L.next s y = x ∧ L.prev s x = y ∧ L.Path s (x :: l₂)) ↔
      (L.next s y = x ∧ L.prev s x = y ∧ True) ∧ L.Path s (x :: l₂)
    exact ⟨fun h => ⟨⟨h.1, h.2.1, trivial⟩, h.2.2⟩, fun h => ⟨h.1.1, h.1.2.1, h.2⟩⟩
  | y :: z :: l₁, x, l₂ => by
    have ih := path_append (z :: l₁) x l₂
    simp only [cons_append, path_cons_cons] at ih ⊢
    rw [ih]
    exact ⟨fun h => ⟨⟨h.1, h.2.1, h.2.2.1⟩, h.2.2.2⟩, fun h => ⟨h.1.1, h.1.2.1, h.1.2.2, h.2⟩⟩

/-- Join two paths by a link from the end of one to the start of the other. -/
theorem path_join {l₁ l₂ : List α} {x y : α} (h₁ : L.Path s (l₁ ++ [x]))
    (hn : L.next s x = y) (hp : L.prev s y = x) (h₂ : L.Path s (y :: l₂)) :
    L.Path s (l₁ ++ x :: y :: l₂) :=
  (path_append l₁ x (y :: l₂)).mpr ⟨h₁, hn, hp, h₂⟩

/-- Neighbours by position. -/
theorem Path.getElem :
    ∀ {l : List α}, L.Path s l → ∀ (i : Nat) (hi : i + 1 < l.length),
      L.next s l[i] = l[i + 1] ∧ L.prev s l[i + 1] = l[i]
  | [], _, _, hi => absurd hi (Nat.not_lt_zero _)
  | [_], _, _, hi => absurd hi (by simp)
  | _ :: _ :: _, h, 0, _ => ⟨h.1, h.2.1⟩
  | _ :: _ :: _, h, i + 1, hi => Path.getElem h.2.2 i (Nat.lt_of_succ_lt_succ hi)

/-- A path only depends on the `next` of all nodes but its last and on the
`prev` of all nodes but its first. -/
theorem Path.congr :
    ∀ {l : List α}, (∀ y ∈ l.dropLast, L.next s' y = L.next s y) →
      (∀ y ∈ l.tail, L.prev s' y = L.prev s y) → L.Path s l → L.Path s' l
  | [], _, _, _ => trivial
  | [_], _, _, _ => trivial
  | x :: y :: l, hn, hp, h => by
    refine ⟨?_, ?_, ?_⟩
    · rw [hn x (by simp)]
      exact h.1
    · rw [hp y (by simp)]
      exact h.2.1
    · refine Path.congr (fun z hz => hn z ?_) (fun z hz => hp z ?_) h.2.2
      · rw [dropLast_cons_of_ne_nil (cons_ne_nil y l)]
        exact mem_cons_of_mem x hz
      · exact mem_cons_of_mem y hz

theorem Path.left_of_append :
    ∀ {l₁ l₂ : List α}, L.Path s (l₁ ++ l₂) → L.Path s l₁
  | [], _, _ => trivial
  | [_], _, _ => trivial
  | _ :: _ :: _, _, h => ⟨h.1, h.2.1, Path.left_of_append h.2.2⟩

theorem Path.right_of_append {l₁ l₂ : List α} (h : L.Path s (l₁ ++ l₂)) : L.Path s l₂ := by
  cases l₂ with
  | nil => trivial
  | cons x l₂ => exact ((path_append l₁ x l₂).mp h).2

/-- Join two paths of `s` in `s'`, where only the link across the seam and the
links pointing out of the two paths have changed. -/
theorem path_rejoin {a d x y : α} {as ds : List α} (h₁ : L.Path s (a :: as))
    (h₂ : L.Path s (ds ++ [d])) (hnd₁ : (a :: as).Nodup) (hnd₂ : (ds ++ [d]).Nodup)
    (hx : (a :: as).getLast? = some x) (hy : (ds ++ [d]).head? = some y)
    (hn₁ : ∀ z ∈ a :: as, z ≠ x → L.next s' z = L.next s z)
    (hp₁ : ∀ z ∈ as, L.prev s' z = L.prev s z)
    (hn₂ : ∀ z ∈ ds, L.next s' z = L.next s z)
    (hp₂ : ∀ z ∈ ds ++ [d], z ≠ y → L.prev s' z = L.prev s z)
    (hn : L.next s' x = y) (hp : L.prev s' y = x) : L.Path s' (a :: as ++ (ds ++ [d])) := by
  have hleft : L.Path s' (a :: as) := by
    refine Path.congr (fun z hz => ?_) hp₁ h₁
    obtain ⟨k, hk⟩ := getLast?_eq_some_iff.mp hx
    rw [hk, dropLast_concat] at hz
    rw [hk, nodup_append] at hnd₁
    refine hn₁ z ?_ (hnd₁.2.2 z hz x (mem_singleton_self x))
    rw [hk]
    exact mem_append_left _ hz
  have hright : L.Path s' (ds ++ [d]) := by
    refine Path.congr (fun z hz => ?_) (fun z hz => ?_) h₂
    · rw [dropLast_concat] at hz
      exact hn₂ z hz
    · obtain ⟨w, hw⟩ := head?_eq_some_iff.mp hy
      rw [hw, tail_cons] at hz
      rw [hw, nodup_cons] at hnd₂
      refine hp₂ z ?_ fun heq => hnd₂.1 (heq ▸ hz)
      rw [hw]
      exact mem_cons_of_mem y hz
  obtain ⟨k, hk⟩ := getLast?_eq_some_iff.mp hx
  obtain ⟨w, hw⟩ := head?_eq_some_iff.mp hy
  rw [hk] at hleft ⊢
  rw [hw] at hright ⊢
  rw [append_assoc]
  exact path_join hleft hn hp hright

/-! ## Rings -/

variable {x y : α} {l l₁ l₂ : List α}

@[simp] theorem ring_nil : L.Ring s x [] ↔ L.next s x = x ∧ L.prev s x = x := by
  show (L.next s x = x ∧ L.prev s x = x ∧ True) ↔ _
  rw [and_true]

/-- The same circle read from another of its nodes. -/
theorem ring_rotate (x y : α) (l₁ l₂ : List α) :
    L.Ring s x (l₁ ++ y :: l₂) ↔ L.Ring s y (l₂ ++ x :: l₁) := by
  have cut : ∀ (a b : α) (k₁ k₂ : List α), L.Ring s a (k₁ ++ b :: k₂) ↔
      L.Path s (a :: k₁ ++ [b]) ∧ L.Path s (b :: k₂ ++ [a]) := by
    intro a b k₁ k₂
    have h := path_append (L := L) (s := s) (a :: k₁) b (k₂ ++ [a])
    simpa [Links.Ring] using h
  rw [cut, cut, and_comm]

/-- A ring only depends on the links of its own nodes. -/
theorem Ring.congr (h : L.Ring s x l) (hs : ∀ y ∈ x :: l, L.SameAt s s' y) : L.Ring s' x l := by
  refine Path.congr (fun y hy => (hs y ?_).1) (fun y hy => (hs y ?_).2) h
  · rwa [dropLast_concat] at hy
  · rw [cons_append, tail_cons] at hy
    rcases mem_append.mp hy with hy | hy
    · exact mem_cons_of_mem x hy
    · rw [mem_singleton.mp hy]
      exact mem_cons_self

theorem Ring.next_head (h : L.Ring s x (y :: l)) : L.next s x = y :=
  h.1

/-- The node before the head is the last member. -/
theorem Ring.prev_head (h : L.Ring s x (l ++ [y])) :
    L.prev s x = y := by
  have hp : L.Path s ((x :: l) ++ y :: [x]) := by simpa [Links.Ring] using h
  exact ((path_append (x :: l) y [x]).mp hp).2.2.1

/-- The neighbours of a member. -/
theorem Ring.next_mem (h : L.Ring s x (l₁ ++ y :: l₂)) :
    L.next s y = (l₂ ++ [x]).head (by simp) := by
  have hr := (ring_rotate x y l₁ l₂).mp h
  cases l₂ with
  | nil => exact hr.next_head
  | cons z l => exact Ring.next_head hr

theorem Ring.prev_mem (h : L.Ring s x (l₁ ++ y :: l₂)) :
    L.prev s y = (x :: l₁).getLast (by simp) := by
  have hr := (ring_rotate x y l₁ l₂).mp h
  rcases eq_nil_or_concat l₁ with rfl | ⟨l, z, rfl⟩
  · exact Ring.prev_head (l := l₂) hr
  · rw [concat_eq_append] at hr ⊢
    have hr' : L.Ring s y ((l₂ ++ x :: l) ++ [z]) := by simpa using hr
    rw [hr'.prev_head]
    simp

/-- A ring is cut before its head, or after it. -/
theorem Ring.path_before (h : L.Ring s x l) : L.Path s (x :: l) :=
  Path.left_of_append h

theorem Ring.path_after (h : L.Ring s x l) : L.Path s (l ++ [x]) := by
  have hcut : L.Path s ([x] ++ (l ++ [x])) := h
  exact hcut.right_of_append

theorem Ring.getLast?_mem (h : L.Ring s x (l₁ ++ y :: l₂)) :
    (x :: l₁).getLast? = some (L.prev s y) := by
  rw [h.prev_mem, getLast?_eq_some_getLast]

theorem Ring.head?_mem (h : L.Ring s x (l₁ ++ y :: l₂)) :
    (l₂ ++ [x]).head? = some (L.next s y) := by
  rw [h.next_mem, head?_eq_some_head]

section Walk

variable (h : L.Ring s x l)
include h

theorem Ring.getLast?_head : (x :: l).getLast? = some (L.prev s x) := by
  rcases eq_nil_or_concat l with rfl | ⟨k, z, rfl⟩
  · rw [(ring_nil.mp h).2]
    rfl
  · rw [concat_eq_append] at h ⊢
    rw [h.prev_head, ← cons_append, getLast?_concat]

theorem Ring.head?_head : (l ++ [x]).head? = some (L.next s x) := by
  cases l with
  | nil =>
    rw [(ring_nil.mp h).1]
    rfl
  | cons y l => rw [h.next_head, cons_append, head?_cons]

/-- The links of a ring stay inside the ring. -/
theorem Ring.next_closed (hy : y ∈ x :: l) : L.next s y ∈ x :: l := by
  rcases mem_cons.mp hy with rfl | hy
  · exact (perm_append_singleton y l).mem_iff.mp (mem_of_head? h.head?_head)
  · obtain ⟨l₁, l₂, rfl⟩ := append_of_mem hy
    have hm := mem_of_head? h.head?_mem
    simp only [mem_append, mem_cons] at hm ⊢
    tauto

theorem Ring.prev_closed (hy : y ∈ x :: l) : L.prev s y ∈ x :: l := by
  rcases mem_cons.mp hy with rfl | hy
  · exact mem_of_getLast? h.getLast?_head
  · obtain ⟨l₁, l₂, rfl⟩ := append_of_mem hy
    have hm := mem_of_getLast? h.getLast?_mem
    simp only [mem_append, mem_cons] at hm ⊢
    tauto

theorem Ring.next_prev_head : L.next s (L.prev s x) = x := by
  rcases eq_nil_or_concat l with rfl | ⟨k, y, rfl⟩
  · rw [(ring_nil.mp h).2, (ring_nil.mp h).1]
  · rw [concat_eq_append] at h
    rw [h.prev_head, h.next_mem]
    rfl

/-- Induction along a walk around a ring: the walk is at a node, and a list is left of it. -/
theorem Ring.walk_rule {C : Nat → List α → α → Prop} (hx : x ∉ l)
    (hdone : ∀ fuel, C (fuel + 1) [] x)
    (hvisit : ∀ fuel y k, y ≠ x → C fuel k (L.next s y) → C (fuel + 1) (y :: k) y) {fuel : Nat}
    (hf : l.length < fuel) : C fuel l (L.next s x) := by
  -- on what is left of the walk, from any node before it
  have key : ∀ (k : List α) (a : α) (f : Nat), x ∉ k → L.Path s (a :: k ++ [x]) →
      k.length < f → C f k (L.next s a) := by
    intro k
    induction k with
    | nil =>
      intro a f _ hp hf
      obtain ⟨f, rfl⟩ := Nat.exists_eq_succ_of_ne_zero (Nat.ne_of_gt hf)
      rw [hp.1]
      exact hdone f
    | cons y k ih =>
      intro a f hk hp hf
      obtain ⟨f, rfl⟩ := Nat.exists_eq_succ_of_ne_zero (Nat.ne_of_gt (Nat.zero_lt_of_lt hf))
      rw [hp.1]
      exact hvisit f y k (fun he => hk (he ▸ mem_cons_self))
        (ih y f (fun hm => hk (mem_cons_of_mem y hm)) hp.2.2 (Nat.lt_of_succ_lt_succ hf))
  exact key l x fuel hx h hf

/-- A walk around a ring meets exactly its members. -/
theorem Ring.walk_eq [DecidableEq α] (hx : x ∉ l) (fuel : Nat) (hf : l.length < fuel) :
    L.walk s x fuel (L.next s x) = l := by
  refine h.walk_rule (C := fun f k y => L.walk s x f y = k) hx (fun _ => if_pos rfl) ?_ hf
  intro f y k hy ih
  rw [walk, if_neg hy, ih]

end Walk

end Links

end UnagiOs
