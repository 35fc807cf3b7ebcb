import UnagiOs.Util.ArrayQueue
import UnagiOs.Util.Fifo

/-!
# Two queues, one specification

`FIFO32` counts its free slots and `ArrayQueue` its elements; both wrap a read and a write
index by comparing it with the capacity. Each refines the bounded queue, from its constructor
on and for any capacity, 0 included. So they give the same answers, up to the way in which
they spell them (`asFifo32`).

`fifo32_dequeue` answers `-EIO` both when there is nothing and when the element is `-EIO`; a
removal has failed if the state did not change either.
-/

namespace UnagiOs

/-! ## FIFO32 -/

def fifo32Queue : Transducer FIFO32 (QueueOp Int) Int where
  step fifo
    | .insert x => some (fifo32Enqueue fifo x)
    | .remove => fifo32Dequeue fifo
    | .peek => (fifo32Peek fifo).map fun data => (fifo, data)
    | .count => some (fifo, fifo32StatusGetUsageB fifo)

/-- How `FIFO32` spells its answers. -/
def fifo32Answer : QueueAnswer Int → Int
  | .inserted => 0
  | .full => -eio
  | .removed x => x
  | .next x => x
  | .empty => -eio
  | .count n => n

namespace FIFO32

/-- The FIFO holds the list `l`, and `c` elements have been dequeued so far. -/
structure Repr (cap c : Nat) (b : Nat → Int) (l : List Int) (fifo : FIFO32) : Prop where
  buf : fifo.buf = some b
  buflen : fifo.buflen = cap
  free : fifo.free + l.length = cap
  nextR : fifo.nextR = c % cap
  nextW : fifo.nextW = (c + l.length) % cap
  data : Circular cap b c l

namespace Repr

variable {cap c : Nat} {b : Nat → Int} {l : List Int} {fifo : FIFO32} {x : Int}

/-- `fifo32_init` sets up an empty FIFO. -/
theorem start (fifo : FIFO32) (buf : Nat → Int) :
    Repr cap 0 buf [] (fifo32Init fifo (some buf) cap) :=
  ⟨rfl, rfl, rfl, (Nat.zero_mod cap).symm, (Nat.zero_mod cap).symm, .nil⟩

/-- A full FIFO refuses the datum and stays as it was. -/
theorem enqueue_full (h : Repr cap c b l fifo) (hfull : l.length = cap) (x : Int) :
    fifo32Enqueue fifo x = (fifo, -eio) := by
  have hfree := h.free
  simp only [fifo32Enqueue, h.buf]
  exact if_pos (by omega)

/-- A datum goes into the slot of the write index. -/
theorem enqueue_room (h : Repr cap c b l fifo) (hroom : l.length ≠ cap) (x : Int) :
    ∃ b' fifo', fifo32Enqueue fifo x = (fifo', 0) ∧ Repr cap c b' (l ++ [x]) fifo' := by
  have hfree := h.free
  have hlt : l.length < cap := by omega
  have hslot : (c + l.length + 1) % cap = _ := succ_mod_eq (Nat.zero_lt_of_lt hlt)
  have hdata := h.data.insert (x := x) hlt
  rw [← h.nextW] at hdata
  -- the wrap by comparison is the one by remainder
  simp only [fifo32Enqueue, h.buf]
  refine ⟨setSlot b fifo.nextW x, _, if_neg (by omega), ?_⟩
  refine { h with buf := rfl, free := ?_, nextW := ?_, data := hdata }
  · show fifo.free - 1 + (l ++ [x]).length = cap
    rw [List.length_append, List.length_singleton]
    omega
  · rw [List.length_append, List.length_singleton, ← Nat.add_assoc, hslot, ← h.nextW, h.buflen]

/-- An empty FIFO answers with an error code. -/
theorem dequeue_empty (h : Repr cap c b [] fifo) : fifo32Dequeue fifo = some (fifo, -eio) :=
  if_pos (h.free.trans h.buflen.symm)

/-- The first datum is taken from the slot of the read index. -/
theorem dequeue_cons (h : Repr cap c b (x :: l) fifo) :
    ∃ fifo', fifo32Dequeue fifo = some (fifo', x) ∧ Repr cap (c + 1) b l fifo' := by
  have hfree := h.free
  have hpos : 0 < cap := Nat.lt_of_lt_of_le (Nat.succ_pos _) h.data.fits
  have hslot : (c + 1) % cap = _ := succ_mod_eq hpos
  have hne : ¬ fifo.free = fifo.buflen := by
    rw [h.buflen, ← hfree, List.length_cons]
    omega
  rw [fifo32Dequeue, if_neg hne]
  simp only [h.buf, h.nextR, h.data.front]
  refine ⟨_, rfl, ?_⟩
  refine { h with buf := rfl, free := ?_, nextR := ?_, nextW := ?_, data := h.data.remove }
  · rw [← hfree, List.length_cons, Nat.add_assoc, Nat.add_comm 1]
  · rw [hslot, h.buflen]
  · rw [h.nextW, List.length_cons, Nat.add_right_comm, Nat.add_assoc]

theorem peek_empty (h : Repr cap c b [] fifo) : fifo32Peek fifo = some (-eio) :=
  if_pos (h.free.trans h.buflen.symm)

/-- `fifo32_peek` finds the datum that comes next. -/
theorem peek_cons (h : Repr cap c b (x :: l) fifo) : fifo32Peek fifo = some x := by
  have hne : ¬ fifo.free = fifo.buflen := by
    rw [h.buflen, ← h.free, List.length_cons]
    omega
  rw [fifo32Peek, if_neg hne, h.buf, h.nextR, Option.map_some, h.data.front]

/-- The slots that are not free hold the data. -/
theorem usage (h : Repr cap c b l fifo) : fifo32StatusGetUsageB fifo = l.length := by
  have hfree := h.free
  rw [fifo32StatusGetUsageB, h.buflen]
  omega

end Repr

/-- The FIFO holds the list. -/
def Holds (cap : Nat) (fifo : FIFO32) (l : List Int) : Prop := ∃ c b, Repr cap c b l fifo

end FIFO32

/-- `fifo32_enqueue` and `fifo32_dequeue` keep the rules of a queue. -/
theorem fifo32_rules (cap : Nat) :
    QueueRules fifo32Queue fifo32Answer cap (FIFO32.Holds cap) where
  insert_full := by
    rintro fifo l ⟨c, b, h⟩ hfull x
    exact congrArg some (h.enqueue_full hfull x)
  insert_room := by
    rintro fifo l ⟨c, b, h⟩ hroom x
    obtain ⟨b', fifo', heq, h'⟩ := h.enqueue_room hroom x
    exact ⟨fifo', congrArg some heq, c, b', h'⟩
  remove_nil := by
    rintro fifo ⟨c, b, h⟩
    exact h.dequeue_empty
  remove_cons := by
    rintro fifo x l ⟨c, b, h⟩
    obtain ⟨fifo', heq, h'⟩ := h.dequeue_cons
    exact ⟨fifo', heq, c + 1, b, h'⟩
  peek_nil := by
    rintro fifo ⟨c, b, h⟩
    exact congrArg (Option.map _) h.peek_empty
  peek_cons := by
    rintro fifo x l ⟨c, b, h⟩
    exact congrArg (Option.map _) h.peek_cons
  count := by
    rintro fifo l ⟨c, b, h⟩
    exact congrArg (fun n => some (fifo, n)) h.usage
  inserted_ne_full := by decide
  count_inj := Int.ofNat_injective

/-! ## ArrayQueue -/

/-- What a caller of an `ArrayQueue` gets: an error code, an element, or the count. -/
inductive ArrayQueueAnswer (α : Type) where
  | code (err : Error)
  | value (x : α)
  | size (n : Nat)
  deriving DecidableEq, Repr

/-- An element is read with `Front` before it is removed with `Pop`, and `Front` is called
when the queue is not empty. -/
def arrayQueue (α : Type) : Transducer (ArrayQueue α) (QueueOp α) (ArrayQueueAnswer α) where
  step q
    | .insert x => some ((q.push x).1, .code (q.push x).2)
    | .remove =>
      some (q.pop.1, if q.pop.2 = .kSuccess then .value q.front else .code q.pop.2)
    | .peek => some (q, if q.isEmpty then .code .kEmpty else .value q.front)
    | .count => some (q, .size q.count)

/-- How `ArrayQueue` spells its answers. -/
def arrayQueueAnswer {α : Type} : QueueAnswer α → ArrayQueueAnswer α
  | .inserted => .code .kSuccess
  | .full => .code .kFull
  | .removed x => .value x
  | .next x => .value x
  | .empty => .code .kEmpty
  | .count n => .size n

/-- The queue holds the list. -/
def ArrayQueue.Holds {α : Type} (cap : Nat) (q : ArrayQueue α) (l : List α) : Prop :=
  ∃ c, Repr cap c l q

/-- `Push` and `Pop` of the array queue keep them too. -/
theorem arrayQueue_rules (α : Type) (cap : Nat) :
    QueueRules (arrayQueue α) arrayQueueAnswer cap (ArrayQueue.Holds cap) where
  insert_full := by
    rintro q l ⟨c, h⟩ hfull x
    simp only [arrayQueue, h.push_full hfull x, arrayQueueAnswer]
  insert_room := by
    rintro q l ⟨c, h⟩ hroom x
    obtain ⟨q', heq, h'⟩ := h.push_room hroom x
    exact ⟨q', by simp only [arrayQueue, heq, arrayQueueAnswer], c, h'⟩
  remove_nil := by
    rintro q ⟨c, h⟩
    simp [arrayQueue, h.pop_empty, arrayQueueAnswer]
  remove_cons := by
    rintro q x l ⟨c, h⟩
    obtain ⟨q', heq, h'⟩ := h.pop_cons
    exact ⟨q', by simp [arrayQueue, heq, h.front, arrayQueueAnswer], c + 1, h'⟩
  peek_nil := by
    rintro q ⟨c, h⟩
    simp [arrayQueue, h.isEmpty_iff.mpr rfl, arrayQueueAnswer]
  peek_cons := by
    rintro q x l ⟨c, h⟩
    -- `Front` is only read where the queue is not empty
    have hne : ¬ q.isEmpty = true := fun he => List.cons_ne_nil x l (h.isEmpty_iff.mp he)
    simp [arrayQueue, hne, h.front, arrayQueueAnswer]
  count := by
    rintro q l ⟨c, h⟩
    simp [arrayQueue, h.count, arrayQueueAnswer]
  inserted_ne_full := by simp [arrayQueueAnswer]
  count_inj := by
    intro n n' heq
    simpa [arrayQueueAnswer] using heq

/-! ## Agreement -/

/-- What `FIFO32` answers where `ArrayQueue` gives this answer. -/
def asFifo32 : ArrayQueueAnswer Int → Int
  | .code .kSuccess => 0
  | .code _ => -eio
  | .value x => x
  | .size n => n

/-- The two spellings of an answer agree. -/
theorem asFifo32_arrayQueueAnswer (r : QueueAnswer Int) :
    asFifo32 (arrayQueueAnswer r) = fifo32Answer r := by
  cases r <;> rfl

/-- **Both queues refine the bounded queue**, for every capacity and every sequence of
operations, and so they agree. -/
theorem fifo32_arrayQueue_refine (cap : Nat) :
    (∀ fifo buf, RefinesQueue fifo32Queue fifo32Answer cap (fifo32Init fifo (some buf) cap)) ∧
      (∀ (α : Type) (data : Nat → α),
        RefinesQueue (arrayQueue α) arrayQueueAnswer cap (.ofBuffer data cap)) ∧
      ∀ fifo buf data ops, ∃ fifo' q' answers,
        (arrayQueue Int).run (.ofBuffer data cap) ops = some (q', answers) ∧
          fifo32Queue.run (fifo32Init fifo (some buf) cap) ops =
            some (fifo', answers.map asFifo32) := by
  have hfifo : ∀ fifo buf,
      RefinesQueue fifo32Queue fifo32Answer cap (fifo32Init fifo (some buf) cap) :=
    fun fifo buf => (fifo32_rules cap).refinesQueue ⟨0, buf, .start fifo buf⟩
  have harray : ∀ (α : Type) (data : Nat → α),
      RefinesQueue (arrayQueue α) arrayQueueAnswer cap (.ofBuffer data cap) :=
    fun α data => (arrayQueue_rules α cap).refinesQueue ⟨0, .start data⟩
  refine ⟨hfifo, harray, fun fifo buf data ops => ?_⟩
  obtain ⟨l, answers, fifo', hrun, hrun₁, -⟩ := hfifo fifo buf ops
  obtain ⟨l', answers', q', hrun', hrun₂, -⟩ := harray Int data ops
  -- the specification is deterministic, so both have simulated the same run of it
  cases hrun.symm.trans hrun'
  refine ⟨fifo', q', _, hrun₂, ?_⟩
  rw [hrun₁, List.map_map]
  exact congrArg (fun as => some (fifo', as))
    (List.map_congr_left fun r _ => (asFifo32_arrayQueueAnswer r).symm)

end UnagiOs
