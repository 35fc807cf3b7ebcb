import UnagiOs.Pic.TimerRun
import UnagiOs.Theory.Account

/-!
# The heap blocks of the timers

`timer_alloc` takes two blocks from the heap, a FIFO and its buffer, and attaches the
FIFO to a timer; `timer_alloc_customfifo` attaches a FIFO of the caller's. `timer_free`
cannot tell which it was: it releases whatever FIFO is attached, with its buffer.

The heap is seen from the timers. What `kzalloc` answers is an input of the calls, 0 for
`NULL`; a block that it hands out is not in use. `owned` and `live` are kept beside the
program's own state: the blocks that `timer_alloc` allocated for a timer, and the blocks
that it allocated and that have not been passed to `kfree`.

`timerBlocks_iff`: each call releases exactly the blocks it should, and none leaks, iff
`timer_alloc` is called while a timer is free and `timer_free` for timers that
`timer_alloc` made.
-/

namespace UnagiOs

/-- A pointer as a number. -/
def ptrOf (p : Nat) : Option Nat := if p = 0 then none else some p

/-- The blocks among a buffer and a FIFO: `NULL` is none. -/
def blocks (buf fifo : Nat) : List Nat := [buf, fifo].filter (· ≠ 0)

/-- The timers, the FIFOs and the blocks. -/
structure TimerHeap where
  run : TimerRun
  /-- `fifo32.buf` of the FIFO at an address. -/
  buf : Nat → Nat
  owned : TimerId → List Nat
  live : List Nat

/-- Calls of the functions of timer.c, and of `mpfifo32_init` by the owner of a FIFO. -/
inductive BlockOp where
  /-- `timer_alloc`, with the answers of its two calls of `kzalloc`. -/
  | alloc (fifo32buf timerFifo : Nat)
  /-- The other functions; `alloc` is `timer_alloc_customfifo`. -/
  | timer (op : TimerOp)
  | mpfifoInit (f buf : Nat)

/-- `mpfifo32_init`, as far as the buffer goes. -/
def mpfifo32InitBuf (bufs : Nat → Nat) (f buf : Nat) : Nat → Nat :=
  if f = 0 then bufs else if buf = 0 then bufs else setSlot bufs f buf

/-- `timer_alloc`: the new timers and FIFOs, and the timer found. -/
def timerAlloc (s : TimerHeap) (fifo32buf timerFifo : Nat) :
    TIMERCTL × (Nat → Nat) × Option TimerId :=
  -- `kzalloc` clears the block
  let bufs := if timerFifo = 0 then s.buf else setSlot s.buf timerFifo 0
  let bufs := mpfifo32InitBuf bufs timerFifo fifo32buf
  let res := timerAllocCustomfifo s.run.ctl (ptrOf timerFifo)
  (res.1, bufs, res.2)

/-- The blocks passed to `kfree` by `timer_free`. -/
def timerFreeBlocks (s : TimerHeap) (timer : Option TimerId) : List Nat :=
  match (timerFree s.run.ctl timer).2 with
  | none => []
  | some f => blocks (s.buf f) f

/-- The blocks that the call passes to `kfree`. -/
def released (s : TimerHeap) : BlockOp → List Nat
  | .timer (.free timer) => timerFreeBlocks s timer
  | _ => []

/-- Assign the blocks of a timer. -/
def TimerHeap.own (s : TimerHeap) (t : TimerId) (l : List Nat) : TimerId → List Nat :=
  fun x => if x = t then l else s.owned x

/-- The blocks of the timers after a call. -/
def TimerHeap.ownedAfter (s : TimerHeap) : BlockOp → TimerId → List Nat
  | .alloc fifo32buf timerFifo =>
    (timerAlloc s fifo32buf timerFifo).2.2.elim s.owned fun t =>
      s.own t (blocks fifo32buf timerFifo)
  | .timer (.free (some t)) => s.own t []
  | _ => s.owned

/-- timer.c and the heap as a machine. -/
def blockMachine (tssTimer : Option TimerId) : Machine TimerHeap BlockOp where
  step s op :=
    match op with
    | .alloc fifo32buf timerFifo =>
      let res := timerAlloc s fifo32buf timerFifo
      some ⟨{ s.run with ctl := res.1 }, res.2.1, s.ownedAfter op,
        s.live ++ blocks fifo32buf timerFifo⟩
    | .timer o =>
      ((timerMachine tssTimer).step s.run o).map fun r =>
        ⟨r, s.buf, s.ownedAfter op, s.live.filter (· ∉ released s op)⟩
    | .mpfifoInit f buf => some { s with buf := mpfifo32InitBuf s.buf f buf }

/-- The state after `timerctl_init`. -/
def blockStart (c : TIMERCTL) (bufs : Nat → Nat) : TimerHeap :=
  ⟨timerStart c, bufs, fun _ => [], []⟩

/-- A block from the heap is not in use, and callers initialise their own FIFOs only. -/
def BlockOp.Legal (s : TimerHeap) : BlockOp → Prop
  | .alloc fifo32buf timerFifo =>
    (∀ p ∈ blocks fifo32buf timerFifo, p ∉ s.live) ∧ (blocks fifo32buf timerFifo).Nodup
  | .timer (.alloc fifo32) => fifo32 ≠ some 0
  | .timer _ => True
  | .mpfifoInit f _ => f ∉ s.live

instance (s : TimerHeap) : ∀ op : BlockOp, Decidable (op.Legal s)
  | .alloc _ _ => inferInstanceAs (Decidable (_ ∧ _))
  | .timer (.alloc _) => inferInstanceAs (Decidable (_ ≠ _))
  | .timer (.settimer _ _ _) | .timer (.free _) | .timer .interrupt => isTrue trivial
  | .mpfifoInit _ _ => inferInstanceAs (Decidable (_ ∉ _))

/-- The blocks of the timer that the call frees. -/
def BlockOp.due (s : TimerHeap) : BlockOp → List Nat
  | .timer (.free (some t)) => s.owned t
  | _ => []

/-- **The call handles its blocks as it should**: it releases exactly the blocks that
`timer_alloc` allocated for the timer it frees, these are in use, each once, and a
`timer_alloc` that returns `NULL` leaves no block behind. -/
structure BlocksExact (s : TimerHeap) (op : BlockOp) (s' : TimerHeap) : Prop where
  exact : released s op = op.due s
  live : ∀ p ∈ released s op, p ∈ s.live
  once : (released s op).Nodup
  none_left : ∀ fifo32buf timerFifo, op = .alloc fifo32buf timerFifo →
    (timerAlloc s fifo32buf timerFifo).2.2 = none → s'.live = s.live

/-- `timer_alloc` finds a free timer, or no memory; `timer_free` is called for a timer that
`timer_alloc` made with a FIFO, or for one without FIFO and blocks. -/
def BlockOp.Tidy (s : TimerHeap) : BlockOp → Prop
  | .alloc fifo32buf timerFifo =>
    (∃ t, (s.run.ctl.timer t).flags = .free) ∨ blocks fifo32buf timerFifo = []
  | .timer (.free (some t)) =>
    (s.run.ctl.timer t).flags ≠ .guardnode →
      ((s.run.ctl.timer t).fifo = none ↔ s.owned t = [])
  | _ => True

instance (s : TimerHeap) : ∀ op : BlockOp, Decidable (op.Tidy s)
  | .alloc _ _ => inferInstanceAs (Decidable (_ ∨ _))
  | .timer (.free (some _)) => inferInstanceAs (Decidable (_ → (_ ↔ _)))
  | .timer (.free none) | .timer (.alloc _) | .timer (.settimer _ _ _) | .timer .interrupt
  | .mpfifoInit _ _ => isTrue trivial

/-! ## The invariant -/

/-- The blocks of the timers. -/
structure BlocksInv (s : TimerHeap) : Prop where
  ring : ∃ q, TimerInv s.run.ctl q
  /-- An attached FIFO of a timer with blocks is one of them, and its buffer is the other. -/
  attached : ∀ t f, (s.run.ctl.timer t).fifo = some f → s.owned t ≠ [] →
    s.owned t = blocks (s.buf f) f
  nonnull : ∀ t f, (s.run.ctl.timer t).fifo = some f → f ≠ 0
  free : ∀ t, (s.run.ctl.timer t).flags = .free → s.owned t = []
  guard : s.owned timerTail = []
  live : ∀ t, ∀ p ∈ s.owned t, p ∈ s.live
  nodup : ∀ t, (s.owned t).Nodup
  apart : ∀ t u, t ≠ u → ∀ p ∈ s.owned t, p ∉ s.owned u

section Blocks

variable {s s' : TimerHeap} {t : TimerId} {f b : Nat}

@[simp] theorem own_self (l : List Nat) : s.own t l t = l := if_pos rfl

theorem own_of_ne (l : List Nat) {u : TimerId} (hu : u ≠ t) : s.own t l u = s.owned u := if_neg hu

theorem mem_blocks (hf : f ≠ 0) : f ∈ blocks b f := by
  simp [blocks, hf]

theorem ptrOf_eq_some {p : Nat} : ptrOf f = some p ↔ f = p ∧ f ≠ 0 := by
  by_cases hf : f = 0 <;> simp [ptrOf, hf]

theorem timerFree_fifo (c : TIMERCTL) (hf : (c.timer t).flags ≠ .guardnode) :
    (timerFree c (some t)).2 = (c.timer t).fifo := by
  simp only [timerFree, if_neg hf]
  rw [(dlistRemove_sameData _ t).fifo]
  split
  · unfold timerSkipAlarm
    split <;> rfl
  · rfl

/-- What `timer_free` releases. -/
theorem timerFreeBlocks_eq (hf : (s.run.ctl.timer t).flags ≠ .guardnode) :
    timerFreeBlocks s (some t) =
      ((s.run.ctl.timer t).fifo.elim [] fun f => blocks (s.buf f) f) := by
  rw [timerFreeBlocks, timerFree_fifo _ hf]
  cases (s.run.ctl.timer t).fifo <;> rfl

/-- The buffers after `timer_alloc`. -/
theorem timerAlloc_buf (s : TimerHeap) (b f g : Nat) :
    (timerAlloc s b f).2.1 g = if g = f ∧ f ≠ 0 then b else s.buf g := by
  simp only [timerAlloc, mpfifo32InitBuf]
  by_cases hf : f = 0
  · simp [hf]
  · by_cases hb : b = 0 <;> by_cases hg : g = f <;> simp [setSlot, hf, hb, hg]

/-- What a call of the timers does to the FIFO and the state of one timer. -/
theorem TimerStep.timer_cases {r r' : TimerRun} {q q' : List TimerId} {op : TimerOp}
    (hs : TimerStep r q op r' q') (u : TimerId) :
    ((r'.ctl.timer u).fifo = (r.ctl.timer u).fifo ∧
      ((r'.ctl.timer u).flags = .free → (r.ctl.timer u).flags = .free)) ∨
    (∃ fifo32, op = .alloc fifo32 ∧ (r.ctl.timer u).flags = .free ∧
      (r'.ctl.timer u).fifo = fifo32) ∨
    op = .free (some u) ∧ (r'.ctl.timer u).fifo = none := by
  cases hs with
  | idle _ => exact .inl ⟨rfl, id⟩
  | @alloc fifo32 t c' hfree _ hs =>
    by_cases hu : u = t
    · subst hu
      exact .inr (.inl ⟨fifo32, rfl, hfree, by simp [hs.fifo]⟩)
    · exact .inl (by simp [hs.fifo, hs.flags, hu])
  | @settimer t timeout data c' _ _ hs _ =>
    by_cases hu : u = t <;> exact .inl (by simp [hs.fifo, hs.flags, armed, hu])
  | @free t c' _ hs =>
    by_cases hu : u = t
    · subst hu
      exact .inr (.inr ⟨rfl, by simp [hs.fifo, freedTimer, TIMER.default]⟩)
    · exact .inl (by simp [hs.fifo, hs.flags, freedTimer, hu])
  | quiet _ => exact .inl ⟨rfl, id⟩
  | fires _ hs =>
    refine .inl ⟨by simp [hs.fifo, ticked], fun h => ?_⟩
    rw [hs.flags, fired_flags] at h
    split at h
    · cases h
    · exact h

theorem BlocksInv.account (h : BlocksInv s) : Account s.owned s.live :=
  ⟨h.live, h.nodup, h.apart⟩

/-- Other FIFOs keep their buffers when a block in no use is overwritten. -/
theorem BlocksInv.buf_of_fresh (h : BlocksInv s) {bufs : Nat → Nat}
    (hbufs : ∀ g ∈ s.live, bufs g = s.buf g) {t : TimerId} {g : Nat}
    (hg : (s.run.ctl.timer t).fifo = some g) (hown : s.owned t ≠ []) :
    s.owned t = blocks (bufs g) g := by
  have heq := h.attached t g hg hown
  have hmem : g ∈ s.owned t := heq ▸ mem_blocks (h.nonnull t g hg)
  rw [hbufs g (h.live t g hmem), heq]

/-- A FIFO of a caller is initialised. -/
theorem BlocksInv.mpfifoInit (h : BlocksInv s) (hf : f ∉ s.live) :
    BlocksInv { s with buf := mpfifo32InitBuf s.buf f b } := by
  refine { h with attached := fun t g hg hown => h.buf_of_fresh ?_ hg hown }
  intro g hg
  have hgf : g ≠ f := fun he => hf (he ▸ hg)
  simp only [mpfifo32InitBuf]
  split
  · rfl
  · split
    · rfl
    · exact if_neg hgf

theorem BlocksInv.timerAlloc_none_iff (h : BlocksInv s) :
    (timerAlloc s b f).2.2 = none ↔ ∀ t, (s.run.ctl.timer t).flags ≠ .free := by
  obtain ⟨q, hq⟩ := h.ring
  simp only [timerAlloc]
  rcases hq.alloc (ptrOf f) with ⟨heq, hno⟩ | ⟨t, c', heq, hfree, -⟩
  · rw [heq]
    exact iff_of_true rfl hno
  · rw [heq]
    exact iff_of_false (Option.some_ne_none t) fun hno => hno t hfree

/-- `timer_alloc` overwrites no FIFO in use. -/
theorem timerAlloc_buf_live (hfresh : ∀ p ∈ blocks b f, p ∉ s.live) (g : Nat) (hg : g ∈ s.live) :
    (timerAlloc s b f).2.1 g = s.buf g := by
  rw [timerAlloc_buf, if_neg]
  rintro ⟨rfl, hf⟩
  exact hfresh g (mem_blocks hf) hg

section Steps

variable (h : BlocksInv s)
include h

/-- **`timer_alloc` keeps the account of the blocks**: a timer found gets the new ones. -/
theorem BlocksInv.alloc (tss : Option TimerId) (hfresh : ∀ p ∈ blocks b f, p ∉ s.live)
    (hnd : (blocks b f).Nodup) :
    ∃ s', (blockMachine tss).step s (.alloc b f) = some s' ∧ BlocksInv s' ∧
      s'.live = s.live ++ blocks b f := by
  refine ⟨_, rfl, ?_, rfl⟩
  have hbufs := timerAlloc_buf_live hfresh
  obtain ⟨q, hq⟩ := h.ring
  -- no timer is free, and the blocks belong to nobody; or `t` gets them
  rcases hq.alloc (ptrOf f) with ⟨heq, -⟩ | ⟨t, c', heq, hfree, -, hq', hs⟩
  · have hctl : (timerAlloc s b f).1 = s.run.ctl := by simp only [timerAlloc, heq]
    have hret : (timerAlloc s b f).2.2 = none := by simp only [timerAlloc, heq]
    simp only [hctl, hret, TimerHeap.ownedAfter, Option.elim_none]
    exact { h with
      attached := fun u g hg hown => h.buf_of_fresh hbufs hg hown
      live := fun u p hp => List.mem_append_left _ (h.live u p hp) }
  · have htail : timerTail ≠ t := (hq.ne_tail (by simp [hfree])).symm
    have hctl : (timerAlloc s b f).1 = c' := by simp only [timerAlloc, heq]
    have hret : (timerAlloc s b f).2.2 = some t := by simp only [timerAlloc, heq]
    have hfifo : ∀ u, (c'.timer u).fifo = if u = t then ptrOf f else (s.run.ctl.timer u).fifo := by
      intro u
      rw [hs.fifo, TIMERCTL.set_timer]
      split <;> rfl
    have hacc : Account (s.own t (blocks b f)) (s.live ++ blocks b f) :=
      h.account.give (own_self _) (fun u hu => own_of_ne _ hu) hfresh hnd
    simp only [hctl, hret, TimerHeap.ownedAfter, Option.elim_some]
    refine ⟨⟨_, hq'⟩, fun u g hg hown => ?_, fun u g hg => ?_, fun u hu => ?_,
      (own_of_ne _ htail).trans h.guard, hacc.live, hacc.nodup, hacc.apart⟩
    · rw [hfifo] at hg
      rcases eq_or_ne u t with rfl | hu
      · obtain ⟨rfl, hf⟩ := ptrOf_eq_some.mp ((if_pos rfl).symm.trans hg)
        simp only [own_self, timerAlloc_buf, ne_eq, hf, not_false_eq_true, and_self, if_true]
      · simp only [own_of_ne _ hu] at hown ⊢
        exact h.buf_of_fresh hbufs ((if_neg hu).symm.trans hg) hown
    · rw [hfifo] at hg
      rcases eq_or_ne u t with rfl | hu
      · obtain ⟨rfl, hf⟩ := ptrOf_eq_some.mp ((if_pos rfl).symm.trans hg)
        exact hf
      · exact h.nonnull u g ((if_neg hu).symm.trans hg)
    · rw [hs.flags, TIMERCTL.set_timer] at hu
      rcases eq_or_ne u t with rfl | hut
      · simp at hu
      · rw [if_neg hut] at hu
        exact (own_of_ne _ hut).trans (h.free u hu)

/-- **The other calls keep the account**, if a freed timer gives back what it owns. -/
theorem BlocksInv.timer (tss : Option TimerId) (op : TimerOp) (hlegal : BlockOp.Legal s (.timer op))
    (hrel : released s (.timer op) = BlockOp.due s (.timer op)) :
    ∃ s', (blockMachine tss).step s (.timer op) = some s' ∧ BlocksInv s' := by
  obtain ⟨q, hq⟩ := h.ring
  obtain ⟨r', q', hr', hq', hs⟩ := hq.step tss op
  refine ⟨⟨r', s.buf, s.ownedAfter (.timer op), s.live.filter (· ∉ released s (.timer op))⟩,
    by simp only [blockMachine, hr', Option.map_some], ?_⟩
  -- a timer keeps its blocks, or it is the one freed and has none
  have hown : ∀ u, s.ownedAfter (.timer op) u = s.owned u ∨ s.ownedAfter (.timer op) u = [] := by
    intro u
    match op with
    | .alloc _ | .settimer _ _ _ | .interrupt | .free none => exact .inl rfl
    | .free (some t) =>
      by_cases hu : u = t
      · exact .inr (if_pos hu)
      · exact .inl (if_neg hu)
  have hacc : Account (s.ownedAfter (.timer op))
      (s.live.filter (· ∉ released s (.timer op))) := by
    rw [hrel]
    match op with
    | .alloc _ | .settimer _ _ _ | .interrupt | .free none =>
      exact h.account.mono fun p hp => List.mem_filter.mpr ⟨hp, by simp [BlockOp.due]⟩
    | .free (some t) => exact h.account.take (if_pos rfl) fun u hu => if_neg hu
  refine ⟨⟨q', hq'⟩, fun u g hg hne => ?_, fun u g hg => ?_, fun u hu => ?_, ?_,
    hacc.live, hacc.nodup, hacc.apart⟩
  · rcases hown u with heq | hnil
    · simp only [heq] at hne ⊢
      rcases hs.timer_cases u with ⟨hfifo, -⟩ | ⟨_, -, hfree, -⟩ | ⟨-, hnone⟩
      · exact h.attached u g (hfifo ▸ hg) hne
      · exact absurd (h.free u hfree) hne
      · simp [hnone] at hg
    · exact absurd hnil hne
  · rcases hs.timer_cases u with ⟨hfifo, -⟩ | ⟨fifo32, rfl, -, hfifo⟩ | ⟨-, hnone⟩
    · exact h.nonnull u g (hfifo ▸ hg)
    · rintro rfl
      exact hlegal (hfifo ▸ hg)
    · simp [hnone] at hg
  · rcases hown u with heq | hnil
    · refine heq.trans ?_
      rcases hs.timer_cases u with ⟨-, hfree⟩ | ⟨_, -, hfree, -⟩ | ⟨rfl, -⟩
      · exact h.free u (hfree hu)
      · exact h.free u hfree
      · rw [← heq]
        exact if_pos rfl
    · exact hnil
  · rcases hown timerTail with heq | hnil
    · exact heq.trans h.guard
    · exact hnil

/-- **`timer_free` releases the blocks of its timer iff** it was called for a timer that
`timer_alloc` made, or for one that has no FIFO. -/
theorem BlocksInv.free_exact_iff :
    timerFreeBlocks s (some t) = s.owned t ↔ BlockOp.Tidy s (.timer (.free (some t))) := by
  simp only [BlockOp.Tidy]
  by_cases hf : (s.run.ctl.timer t).flags = .guardnode
  · obtain ⟨q, hq⟩ := h.ring
    have ht : t = timerTail := (hq.marked.guard t).mp hf
    refine iff_of_true ?_ fun hne => absurd hf hne
    rw [timerFreeBlocks, timerFree_guard hf, ht, h.guard]
  · rw [timerFreeBlocks_eq hf]
    simp only [ne_eq, hf, not_false_eq_true, true_imp_iff]
    cases hfifo : (s.run.ctl.timer t).fifo with
    | none => exact ⟨fun heq => iff_of_true rfl heq.symm, fun hiff => (hiff.mp rfl).symm⟩
    | some f =>
      simp only [Option.elim_some, reduceCtorEq, false_iff]
      constructor
      · intro heq hnil
        have hmem := mem_blocks (b := s.buf f) (h.nonnull t f hfifo)
        rw [heq, hnil] at hmem
        cases hmem
      · exact fun hne => (h.attached t f hfifo hne).symm

theorem BlocksInv.exact_iff (op : TimerOp) :
    released s (.timer op) = BlockOp.due s (.timer op) ↔ BlockOp.Tidy s (.timer op) := by
  match op with
  | .free (some t) => exact h.free_exact_iff
  | .alloc _ | .settimer _ _ _ | .interrupt | .free none => exact iff_of_true rfl trivial

/-- The blocks of a timer are in use, each once. -/
theorem BlocksInv.due_live (op : BlockOp) : (∀ p ∈ op.due s, p ∈ s.live) ∧ (op.due s).Nodup := by
  match op with
  | .timer (.free (some t)) => exact ⟨h.live t, h.nodup t⟩
  | .timer (.free none) | .timer (.alloc _) | .timer (.settimer _ _ _) | .timer .interrupt
  | .alloc _ _ | .mpfifoInit _ _ => exact ⟨fun _ hp => absurd hp List.not_mem_nil, List.nodup_nil⟩

/-- A tidy call keeps the account and handles its blocks as it should. -/
theorem BlocksInv.step (tss : Option TimerId) (op : BlockOp) (hlegal : op.Legal s)
    (htidy : op.Tidy s) :
    ∃ s', (blockMachine tss).step s op = some s' ∧ BlocksExact s op s' ∧ BlocksInv s' := by
  obtain ⟨hlive, honce⟩ := h.due_live op
  cases op with
  | alloc b f =>
    obtain ⟨s', hs', h', heq⟩ := h.alloc tss hlegal.1 hlegal.2
    refine ⟨s', hs', ⟨rfl, hlive, honce, ?_⟩, h'⟩
    rintro _ _ ⟨⟩ hnone
    rcases htidy with ⟨t, ht⟩ | hnil
    · exact absurd ht (h.timerAlloc_none_iff.mp hnone t)
    · rw [heq, hnil, List.append_nil]
  | timer op =>
    have hrel := (h.exact_iff op).mpr htidy
    obtain ⟨s', hs', h'⟩ := h.timer tss op hlegal hrel
    exact ⟨s', hs', ⟨hrel, hrel ▸ hlive, hrel ▸ honce, fun _ _ he => by cases he⟩, h'⟩
  | mpfifoInit f b =>
    exact ⟨_, rfl, ⟨rfl, hlive, honce, fun _ _ he => by cases he⟩, h.mpfifoInit hlegal⟩

/-- A call that is not tidy does not. -/
theorem BlocksInv.not_exact {tss : Option TimerId} {op : BlockOp} (hbad : ¬ op.Tidy s)
    (hs' : (blockMachine tss).step s op = some s') : ¬ BlocksExact s op s' := by
  intro hex
  cases op with
  | alloc b f =>
    obtain ⟨hno, hne⟩ := not_or.mp hbad
    have hleft := hex.none_left b f rfl (h.timerAlloc_none_iff.mpr (not_exists.mp hno))
    simp only [blockMachine, Option.some.injEq] at hs'
    rw [← hs'] at hleft
    exact hne (List.append_right_eq_self.mp hleft)
  | timer op => exact hbad ((h.exact_iff op).mp hex.exact)
  | mpfifoInit f b => exact hbad trivial

end Steps

end Blocks

theorem blockStart_inv (c : TIMERCTL) (bufs : Nat → Nat) : BlocksInv (blockStart c bufs) := by
  refine ⟨timerStart_inv c, fun t f _ hne => absurd rfl hne, fun t f hf => ?_, fun _ _ => rfl, rfl,
    fun _ _ hp => absurd hp List.not_mem_nil, fun _ => List.nodup_nil,
    fun _ _ _ _ hp => absurd hp List.not_mem_nil⟩
  simp [blockStart, timerStart_eq, initTimerctl] at hf

/-- **All calls handle their blocks as they should iff** `timer_alloc` is called only while a
timer is free, and `timer_free` for timers that `timer_alloc` made. -/
theorem timerBlocks_iff (tss : Option TimerId) (c : TIMERCTL) (bufs : Nat → Nat)
    (ops : List BlockOp)
    (hlegal : (blockMachine tss).AllSteps (fun s op => op.Legal s) (blockStart c bufs) ops) :
    (blockMachine tss).Always (fun _ => True) BlocksExact (blockStart c bufs) ops ↔
      (blockMachine tss).AllSteps (fun s op => op.Tidy s) (blockStart c bufs) ops := by
  refine Machine.always_iff (fun _ _ => trivial) ?_ ?_ (blockStart_inv c bufs) hlegal
  · exact fun s op h hl htidy => h.step tss op hl htidy
  · exact fun s op s' h _ hbad hs' hex => absurd hex (h.not_exact hbad hs')

/-- A timer with blocks of its own is allocated, set and freed. -/
theorem timerBlocks_iff_alloc_free : (blockMachine none).Always (fun _ => True) BlocksExact
    (blockStart initTimerctl fun _ => 0)
    [.alloc 0x1000 0x2000, .timer (.settimer (some 0) 10 1), .timer (.free (some 0))] :=
  (timerBlocks_iff none initTimerctl (fun _ => 0) _ (by decide +kernel)).mpr (by decide +kernel)

/-- `timer_free` passes a static FIFO and its buffer to `kfree`, as for the timer of
`__tss4_main`: `timer_alloc` was never called. -/
theorem timerFree_static_fifo : ∃ s, (blockMachine none).run (blockStart initTimerctl fun _ => 0)
      [.mpfifoInit 0x5000 0x6000, .timer (.alloc (some 0x5000)),
        .timer (.settimer (some 0) 10 1)] = some s ∧
    released s (.timer (.free (some 0))) = [0x6000, 0x5000] ∧
      s.owned 0 = [] ∧ s.live = [] :=
  Machine.exists_run_of_any (by decide +kernel)

end UnagiOs
