import UnagiOs.Theory.CycleRing
import UnagiOs.Theory.Slots
import UnagiOs.Theory.Transducer

/-!
# Bounded queues and circular buffers

`boundedQueue cap` is a queue for at most `cap` elements: a list that grows at its end and
loses its head, and refuses to grow beyond `cap`.

`Circular cap buf c l` says how an array holds such a list. Positions are numbered from 0
through all laps, and position `x` lives in slot `x % cap`; the list starts at position `c`.
What lies in the other slots is stale. Removing an element moves `c` and leaves the array alone.
-/

namespace UnagiOs

inductive QueueOp (α : Type) where
  | insert (x : α)
  | remove
  | peek
  | count
  deriving DecidableEq, Repr

inductive QueueAnswer (α : Type) where
  | inserted
  | full
  | removed (x : α)
  | next (x : α)
  | empty
  | count (n : Nat)
  deriving DecidableEq, Repr

def boundedQueue (α : Type) (cap : Nat) : Transducer (List α) (QueueOp α) (QueueAnswer α) where
  step
    | l, .insert x => if l.length = cap then some (l, .full) else some (l ++ [x], .inserted)
    | [], .remove => some ([], .empty)
    | x :: l, .remove => some (l, .removed x)
    | [], .peek => some ([], .empty)
    | x :: l, .peek => some (x :: l, .next x)
    | l, .count => some (l, .count l.length)

theorem boundedQueue_total {α : Type} {cap : Nat} (l : List α) (op : QueueOp α) :
    ∃ r, (boundedQueue α cap).step l op = some r := by
  cases op with
  | insert x =>
    by_cases h : l.length = cap
    · exact ⟨_, if_pos h⟩
    · exact ⟨_, if_neg h⟩
  | remove => cases l <;> exact ⟨_, rfl⟩
  | peek => cases l <;> exact ⟨_, rfl⟩
  | count => cases l <;> exact ⟨_, rfl⟩

/-! ## What it is to be such a queue -/

section Refinement

variable {σ α ο : Type} {T : Transducer σ (QueueOp α) ο} {f : QueueAnswer α → ο} {cap : Nat}
  {R : σ → List α → Prop}

/-- The state `s` behaves as a queue that holds `l`: an insertion is refused exactly if there
is no room, a removal exactly if there is nothing, and a refusal changes nothing; what `peek`
shows is what `remove` gives. -/
structure QueueState (T : Transducer σ (QueueOp α) ο) (f : QueueAnswer α → ο) (cap : Nat)
    (l : List α) (s : σ) : Prop where
  insert_refused : ∀ x, T.step s (.insert x) = some (s, f .full) ↔ l.length = cap
  insert_taken : l.length ≠ cap → ∀ x, ∃ s', T.step s (.insert x) = some (s', f .inserted)
  remove_refused : T.step s .remove = some (s, f .empty) ↔ l = []
  remove_taken : ∀ x l', l = x :: l' →
    T.step s .peek = some (s, f (.next x)) ∧ ∃ s', T.step s .remove = some (s', f (.removed x))
  count : T.step s .count = some (s, f (.count l.length))

/-- After every sequence of operations the answers have been those of the bounded queue, and
the state behaves as a queue that holds what the bounded queue holds. -/
def RefinesQueue (T : Transducer σ (QueueOp α) ο) (f : QueueAnswer α → ο) (cap : Nat)
    (s : σ) : Prop :=
  ∀ ops, ∃ l answers s', (boundedQueue α cap).run [] ops = some (l, answers) ∧
    T.run s ops = some (s', answers.map f) ∧ QueueState T f cap l s'

/-- What an implementation has to show of its operations, on the states that `R` relates to
the list that they hold. -/
structure QueueRules (T : Transducer σ (QueueOp α) ο) (f : QueueAnswer α → ο) (cap : Nat)
    (R : σ → List α → Prop) : Prop where
  insert_full : ∀ {s l}, R s l → l.length = cap → ∀ x, T.step s (.insert x) = some (s, f .full)
  insert_room : ∀ {s l}, R s l → l.length ≠ cap → ∀ x,
    ∃ s', T.step s (.insert x) = some (s', f .inserted) ∧ R s' (l ++ [x])
  remove_nil : ∀ {s}, R s [] → T.step s .remove = some (s, f .empty)
  remove_cons : ∀ {s x l}, R s (x :: l) →
    ∃ s', T.step s .remove = some (s', f (.removed x)) ∧ R s' l
  peek_nil : ∀ {s}, R s [] → T.step s .peek = some (s, f .empty)
  peek_cons : ∀ {s x l}, R s (x :: l) → T.step s .peek = some (s, f (.next x))
  count : ∀ {s l}, R s l → T.step s .count = some (s, f (.count l.length))
  /-- The answers tell. -/
  inserted_ne_full : f .inserted ≠ f .full
  count_inj : Function.Injective fun n => f (.count n)

namespace QueueRules

/-- An implementation that keeps the rules simulates the queue. -/
theorem simulates (h : QueueRules T f cap R) : T.Simulates (boundedQueue α cap) f R := by
  intro s l op l' r hR hstep
  cases op with
  | insert x =>
    by_cases hfull : l.length = cap
    · cases hstep.symm.trans (if_pos hfull)
      exact ⟨s, h.insert_full hR hfull x, hR⟩
    · cases hstep.symm.trans (if_neg hfull)
      exact h.insert_room hR hfull x
  | remove =>
    cases l with
    | nil =>
      cases hstep
      exact ⟨s, h.remove_nil hR, hR⟩
    | cons x l =>
      cases hstep
      exact h.remove_cons hR
  | peek =>
    cases l with
    | nil =>
      cases hstep
      exact ⟨s, h.peek_nil hR, hR⟩
    | cons x l =>
      cases hstep
      exact ⟨s, h.peek_cons hR, hR⟩
  | count =>
    cases l with
    | nil =>
      cases hstep
      exact ⟨s, h.count hR, hR⟩
    | cons x l =>
      cases hstep
      exact ⟨s, h.count hR, hR⟩

/-- What can be observed of a state that holds a list. -/
theorem queueState (h : QueueRules T f cap R) {s : σ} {l : List α} (hR : R s l) :
    QueueState T f cap l s where
  insert_refused x := by
    constructor
    · intro hfull
      by_contra hroom
      obtain ⟨s', hstep, -⟩ := h.insert_room hR hroom x
      rw [hstep, Option.some.injEq, Prod.mk.injEq] at hfull
      exact h.inserted_ne_full hfull.2
    · intro hfull
      exact h.insert_full hR hfull x
  insert_taken hroom x := by
    obtain ⟨s', hstep, -⟩ := h.insert_room hR hroom x
    exact ⟨s', hstep⟩
  remove_refused := by
    constructor
    · intro hempty
      cases l with
      | nil => rfl
      | cons x l =>
        -- the state would hold both `x :: l` and `l`
        obtain ⟨s', hstep, hR'⟩ := h.remove_cons hR
        rw [hstep, Option.some.injEq, Prod.mk.injEq] at hempty
        rw [hempty.1] at hR'
        have hcount := h.count hR'
        rw [h.count hR, Option.some.injEq, Prod.mk.injEq] at hcount
        exact absurd (h.count_inj hcount.2) (Nat.succ_ne_self _)
    · rintro rfl
      exact h.remove_nil hR
  remove_taken := by
    rintro x l' rfl
    obtain ⟨s', hstep, -⟩ := h.remove_cons hR
    exact ⟨h.peek_cons hR, s', hstep⟩
  count := h.count hR

/-- **Refinement rule.** -/
theorem refinesQueue (h : QueueRules T f cap R) {s : σ} (hR : R s []) : RefinesQueue T f cap s := by
  intro ops
  obtain ⟨⟨l, answers⟩, hrun⟩ := Transducer.exists_run (boundedQueue_total (α := α)) [] ops
  obtain ⟨s', hrun', hR'⟩ := h.simulates.run hR hrun
  exact ⟨l, answers, s', hrun, hrun', h.queueState hR'⟩

end QueueRules

end Refinement

/-! ## Circular buffers -/

/-- The array holds the list `l` from position `c` on. -/
structure Circular {α : Type} (cap : Nat) (buf : Nat → α) (c : Nat) (l : List α) : Prop where
  fits : l.length ≤ cap
  holds : ∀ k x, l[k]? = some x → buf ((c + k) % cap) = x

namespace Circular

variable {α : Type} {cap c : Nat} {buf : Nat → α} {l : List α} {x : α}

theorem nil : Circular cap buf c [] where
  fits := Nat.zero_le cap
  holds k x h := by simp at h

/-- The oldest element. -/
theorem front (h : Circular cap buf c (x :: l)) : buf (c % cap) = x :=
  h.holds 0 x rfl

theorem remove (h : Circular cap buf c (x :: l)) : Circular cap buf (c + 1) l where
  fits := Nat.le_of_succ_le h.fits
  holds k y hk := by
    have hslot := h.holds (k + 1) y hk
    rwa [← Nat.add_assoc, Nat.add_right_comm] at hslot

/-- The slot behind the list is no slot of the list. -/
theorem insert (h : Circular cap buf c l) (hroom : l.length < cap) :
    Circular cap (setSlot buf ((c + l.length) % cap) x) c (l ++ [x]) where
  fits := by
    rw [List.length_append, List.length_singleton]
    exact hroom
  holds k y hk := by
    rcases Nat.lt_trichotomy k l.length with hlt | rfl | hgt
    · rw [List.getElem?_append_left hlt] at hk
      rw [setSlot, if_neg (mod_ne_of_lt (by omega) (by omega))]
      exact h.holds k y hk
    · rw [List.getElem?_concat_length] at hk
      rw [setSlot, if_pos rfl, Option.some.inj hk]
    · have hlen : (l ++ [x]).length ≤ k := by
        rw [List.length_append, List.length_singleton]
        exact hgt
      rw [List.getElem?_eq_none hlen] at hk
      cases hk

end Circular

end UnagiOs
