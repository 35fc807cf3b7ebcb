import UnagiOs.Theory.BoundedQueue
import UnagiOs.Util.Error

/-!
# ArrayQueue (queue.hpp)

A ring buffer over an array that the caller provides. `Front` does not look at the count: on
an empty queue it is whatever lies at `read_pos_`.
-/

namespace UnagiOs

/-- `ArrayQueue<T>`. -/
structure ArrayQueue (α : Type) where
  data : Nat → α
  readPos : Nat
  writePos : Nat
  count : Nat
  capacity : Nat

namespace ArrayQueue

variable {α : Type}

/-- `ArrayQueue(T *buf, size_t size)` -/
def ofBuffer (buf : Nat → α) (size : Nat) : ArrayQueue α := ⟨buf, 0, 0, 0, size⟩

def push (q : ArrayQueue α) (value : α) : ArrayQueue α × Error :=
  if q.count = q.capacity then (q, .kFull)
  else
    let writePos := q.writePos + 1
    ({ q with
        data := setSlot q.data q.writePos value
        count := q.count + 1
        writePos := if writePos = q.capacity then 0 else writePos }, .kSuccess)

def pop (q : ArrayQueue α) : ArrayQueue α × Error :=
  if q.count = 0 then (q, .kEmpty)
  else
    let readPos := q.readPos + 1
    ({ q with
        count := q.count - 1
        readPos := if readPos = q.capacity then 0 else readPos }, .kSuccess)

def isEmpty (q : ArrayQueue α) : Bool := q.count == 0

def front (q : ArrayQueue α) : α := q.data q.readPos

/-- The queue holds the list `l`, and `c` elements have been popped so far. -/
structure Repr (cap c : Nat) (l : List α) (q : ArrayQueue α) : Prop where
  capacity : q.capacity = cap
  count : q.count = l.length
  readPos : q.readPos = c % cap
  writePos : q.writePos = (c + l.length) % cap
  data : Circular cap q.data c l

namespace Repr

variable {cap c : Nat} {l : List α} {q : ArrayQueue α} {x : α}

theorem start (buf : Nat → α) : Repr cap 0 [] (ofBuffer buf cap) :=
  ⟨rfl, rfl, (Nat.zero_mod cap).symm, (Nat.zero_mod cap).symm, .nil⟩

theorem isEmpty_iff (h : Repr cap c l q) : q.isEmpty = true ↔ l = [] := by
  rw [isEmpty, beq_iff_eq, h.count, List.length_eq_zero_iff]

theorem front (h : Repr cap c (x :: l) q) : q.front = x := by
  rw [ArrayQueue.front, h.readPos]
  exact h.data.front

theorem push_full (h : Repr cap c l q) (hfull : l.length = cap) (x : α) :
    q.push x = (q, .kFull) :=
  if_pos (by rw [h.count, h.capacity, hfull])

theorem push_room (h : Repr cap c l q) (hroom : l.length ≠ cap) (x : α) :
    ∃ q', q.push x = (q', .kSuccess) ∧ Repr cap c (l ++ [x]) q' := by
  have hlt : l.length < cap := Nat.lt_of_le_of_ne h.data.fits hroom
  have hslot : (c + l.length + 1) % cap = _ := succ_mod_eq (Nat.zero_lt_of_lt hlt)
  have hdata := h.data.insert (x := x) hlt
  refine ⟨_, if_neg (by rw [h.count, h.capacity]; exact hroom), ?_⟩
  refine { h with count := ?_, writePos := ?_, data := ?_ }
  · simp [h.count]
  · rw [List.length_append, List.length_singleton, ← Nat.add_assoc, hslot, ← h.writePos,
      h.capacity]
  · rw [h.writePos]
    exact hdata

theorem pop_empty (h : Repr cap c [] q) : q.pop = (q, .kEmpty) :=
  if_pos h.count

theorem pop_cons (h : Repr cap c (x :: l) q) :
    ∃ q', q.pop = (q', .kSuccess) ∧ Repr cap (c + 1) l q' := by
  have hpos : 0 < cap := Nat.lt_of_lt_of_le (Nat.succ_pos _) h.data.fits
  have hslot : (c + 1) % cap = _ := succ_mod_eq hpos
  refine ⟨_, if_neg (by rw [h.count]; exact Nat.succ_ne_zero _), ?_⟩
  refine { h with count := ?_, readPos := ?_, writePos := ?_, data := h.data.remove }
  · simp [h.count]
  · rw [hslot, ← h.readPos, h.capacity]
  · rw [h.writePos, List.length_cons, Nat.add_right_comm, Nat.add_assoc]

end Repr

end ArrayQueue

end UnagiOs
