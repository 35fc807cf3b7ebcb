import UnagiOs.Theory.Machine
import UnagiOs.Pic.TimerOps

/-!
# Histories of the timers

Callers allocate, set and free timers, and the clock interrupts; the machine
also logs every call of `mpfifo32_enqueue` by the interrupt handler.

- `timerRing_ok`: the ring is well formed, sorted and complete after every history.
- `noneLost_iff`: no armed timer is lost along a history iff every
  `timer_settimer` of it finds a place. Once all timers are allocated, the ring
  is empty and the search from the guard finds none.
-/

namespace UnagiOs

open Links List

/-- The timers, and the firings so far. -/
structure TimerRun where
  ctl : TIMERCTL
  log : List Firing

/-- Calls of the functions of timer.c. -/
inductive TimerOp where
  | alloc (fifo32 : Option Nat)
  | settimer (timer : Option TimerId) (timeout : Nat) (data : UInt8)
  | free (timer : Option TimerId)
  /-- `timer_int_handler`. -/
  | interrupt

/-- timer.c as a machine, for a given `tssTimer`. -/
def timerMachine (tssTimer : Option TimerId) : Machine TimerRun TimerOp where
  step r
    | .alloc fifo32 => some { r with ctl := (timerAllocCustomfifo r.ctl fifo32).1 }
    | .settimer timer timeout data =>
      (timerSettimer r.ctl timer timeout data).map fun c => { r with ctl := c }
    | .free timer => some { r with ctl := (timerFree r.ctl timer).1 }
    | .interrupt => (timerIntHandler tssTimer r.ctl).map fun (c, fs, _) => ⟨c, r.log ++ fs⟩

/-- The state after `timerctl_init`. -/
def timerStart (c : TIMERCTL) : TimerRun := ⟨timerctlInit c, []⟩

theorem timerStart_eq (c : TIMERCTL) : timerStart c = ⟨initTimerctl, []⟩ := by
  rw [timerStart, timerctlInit_eq]

/-- The timers on the ring headed by `listtail`, in order. -/
def TIMERCTL.queue (c : TIMERCTL) : List TimerId :=
  timerLinks.walk c c.listtail osMaxTimer (timerLinks.next c c.listtail)

theorem TimerInv.queue_eq {c : TIMERCTL} {q : List TimerId} (h : TimerInv c q) :
    c.queue = q := by
  rw [TIMERCTL.queue, h.marked.tail]
  exact h.linked.ring.walk_eq (nodup_cons.mp h.linked.nodup).1 osMaxTimer h.linked.length_lt

/-! ## The ring -/

/-- The ring of `timerDL` nodes is in order. -/
structure TimerRingOk (c : TIMERCTL) : Prop where
  ring : timerLinks.Ring c c.listtail c.queue
  guard : ∀ t, (c.timer t).flags = .guardnode ↔ t = c.listtail
  once : (c.listtail :: c.queue).Nodup
  sorted : c.queue.Pairwise fun x y => (c.timer x).targetTick ≤ (c.timer y).targetTick
  free_on : ∀ t, (c.timer t).flags = .free → t ∈ c.queue
  allocated_off : ∀ t, (c.timer t).flags = .allocated → t ∉ c.queue
  off_alone : ∀ t, t ∉ c.listtail :: c.queue → timerLinks.next c t = t ∧ timerLinks.prev c t = t

theorem TimerInv.ring_ok {c : TIMERCTL} {q : List TimerId} (h : TimerInv c q) :
    TimerRingOk c := by
  have hq := h.queue_eq
  have htail := h.marked.tail
  refine ⟨?_, ?_, ?_, ?_, ?_, ?_, ?_⟩ <;> simp only [hq, htail]
  · exact h.linked.ring
  · exact h.marked.guard
  · exact h.linked.nodup
  · exact h.marked.sorted
  · exact h.marked.free_mem
  · exact fun t ht hm => h.marked.alloc_off t hm ht
  · exact fun t ht => ring_nil.mp (h.linked.alone t ht)

/-- The call changes nothing: there is no timer to allocate, or the timer given
is `NULL` or in a state that the function ignores. -/
def TimerOp.Idle (c : TIMERCTL) : TimerOp → Prop
  | .alloc _ => ∀ t, (c.timer t).flags ≠ .free
  | .settimer none _ _ => True
  | .settimer (some t) _ _ => (c.timer t).flags ≠ .allocated ∧ (c.timer t).flags ≠ .oncountdown
  | .free none => True
  | .free (some t) => (c.timer t).flags = .guardnode
  | .interrupt => False

/-- What a call can do to the timers, their queue `q` and the log. -/
inductive TimerStep (r : TimerRun) (q : List TimerId) : TimerOp → TimerRun → List TimerId → Prop
  where
  | idle {op : TimerOp} : op.Idle r.ctl → TimerStep r q op r q
  | alloc {fifo32 : Option Nat} {t : TimerId} {c' : TIMERCTL} :
      (r.ctl.timer t).flags = .free → (∀ x < t, (r.ctl.timer x).flags ≠ .free) →
      SameData (r.ctl.set t { r.ctl.timer t with flags := .allocated, fifo := fifo32 }) c' →
      TimerStep r q (.alloc fifo32) { r with ctl := c' } (q.erase t)
  | settimer {t : TimerId} {timeout : Nat} {data : UInt8} {c' : TIMERCTL} {q' : List TimerId} :
      (r.ctl.timer t).flags = .allocated ∨ (r.ctl.timer t).flags = .oncountdown →
      SameData (armed r.ctl t timeout data) c' →
      (∀ x, x ∈ q' ↔ x ∈ q.erase t ∨ x = t ∧ ArmFound r.ctl q t timeout) →
      TimerStep r q (.settimer (some t) timeout data) { r with ctl := c' } q'
  | free {t : TimerId} {c' : TIMERCTL} :
      (r.ctl.timer t).flags ≠ .guardnode → SameData (freedTimer r.ctl t) c' →
      TimerStep r q (.free (some t)) { r with ctl := c' } (q.erase t ++ [t])
  /-- No timer is due. -/
  | quiet : u32 (r.ctl.tick + 1) < r.ctl.nextAlarmOnTick →
      TimerStep r q .interrupt { r with ctl := ticked r.ctl } q
  /-- The alarm is reached. -/
  | fires {c' : TIMERCTL} : r.ctl.nextAlarmOnTick ≤ u32 (r.ctl.tick + 1) →
      SameData { fired (ticked r.ctl) (q.takeWhile (isDue (ticked r.ctl))) with nextAlarmOnTick :=
        (r.ctl.timer ((q.dropWhile (isDue (ticked r.ctl))).headD timerTail)).targetTick } c' →
      TimerStep r q .interrupt
        ⟨c', r.log ++ (q.takeWhile (isDue (ticked r.ctl))).map (firing (ticked r.ctl))⟩
        (q.dropWhile (isDue (ticked r.ctl)))

/-- **Every call goes through, does one of these things and keeps the ring in order.** -/
theorem TimerInv.step {r : TimerRun} {q : List TimerId} (tss : Option TimerId)
    (h : TimerInv r.ctl q) (op : TimerOp) :
    ∃ r' q', (timerMachine tss).step r op = some r' ∧ TimerInv r'.ctl q' ∧
      TimerStep r q op r' q' := by
  cases op with
  | alloc fifo32 =>
    rcases h.alloc fifo32 with ⟨heq, hno⟩ | ⟨t, c', heq, hf, hlt, h', hs⟩
    · exact ⟨r, q, by simp only [timerMachine, heq], h, .idle hno⟩
    · exact ⟨{ r with ctl := c' }, q.erase t, by simp only [timerMachine, heq], h',
        .alloc hf hlt hs⟩
  | settimer timer timeout data =>
    cases timer with
    | none => exact ⟨r, q, rfl, h, .idle trivial⟩
    | some t =>
      by_cases hf : (r.ctl.timer t).flags = .allocated ∨ (r.ctl.timer t).flags = .oncountdown
      · obtain ⟨c', q', heq, h', hs, hmem⟩ := h.settimer timeout data hf
        exact ⟨{ r with ctl := c' }, q', by simp only [timerMachine, heq, Option.map_some], h',
          .settimer hf hs hmem⟩
      · rw [not_or] at hf
        exact ⟨r, q, by simp only [timerMachine, timerSettimer_other hf.1 hf.2, Option.map_some],
          h, .idle hf⟩
  | free timer =>
    cases timer with
    | none => exact ⟨r, q, rfl, h, .idle trivial⟩
    | some t =>
      by_cases hf : (r.ctl.timer t).flags = .guardnode
      · exact ⟨r, q, by simp only [timerMachine, timerFree_guard hf], h, .idle hf⟩
      · exact ⟨{ r with ctl := (timerFree r.ctl (some t)).1 }, _, rfl, (h.free hf).1,
          .free hf (h.free hf).2⟩
  | interrupt =>
    rcases h.handler tss with ⟨hlt, heq⟩ | ⟨hle, c', heq, h', hs⟩
    · exact ⟨{ r with ctl := ticked r.ctl }, q,
        by simp only [timerMachine, heq, Option.map_some, append_nil], h.congr rfl rfl,
        .quiet hlt⟩
    · exact ⟨⟨c', _⟩, _, by simp only [timerMachine, heq, Option.map_some], h',
        .fires hle hs⟩

theorem timerStart_inv (c : TIMERCTL) : ∃ q, TimerInv (timerStart c).ctl q :=
  ⟨_, timerctlInit_inv c⟩

/-- **The timer ring is in order after every history** of calls, also when armed
timers get lost, targets wrap or the tick reaches its maximum. -/
theorem timerRing_ok (tss : Option TimerId) (c : TIMERCTL) (ops : List TimerOp) :
    ∃ r, (timerMachine tss).run (timerStart c) ops = some r ∧ TimerRingOk r.ctl := by
  have hstep : ∀ (r : TimerRun) (op : TimerOp), (∃ q, TimerInv r.ctl q) → True →
      ∃ r', (timerMachine tss).step r op = some r' ∧ ∃ q, TimerInv r'.ctl q := by
    rintro r op ⟨q, h⟩ -
    obtain ⟨r', q', hr', h', -⟩ := h.step tss op
    exact ⟨r', hr', q', h'⟩
  obtain ⟨r, hrun, q, h⟩ := Machine.run_of_inv hstep (timerStart_inv c)
    (Machine.AllSteps.of_mem fun _ _ _ => trivial)
  exact ⟨r, hrun, h.ring_ok⟩

/-! ## Armed timers stay on the ring -/

/-- No armed timer is lost. -/
def NoneLost (r : TimerRun) : Prop :=
  ∀ t, (r.ctl.timer t).flags = .oncountdown → t ∈ r.ctl.queue

/-- The timer that `timer_settimer` arms has a place: some other free or running
timer is due no earlier, or the timer moves behind its predecessor. -/
def TimerOp.Placeable (r : TimerRun) : TimerOp → Prop
  | .settimer (some t) timeout _ =>
    (r.ctl.timer t).flags = .allocated ∨ (r.ctl.timer t).flags = .oncountdown →
      (∃ x, x ≠ t ∧ ((r.ctl.timer x).flags = .free ∨ (r.ctl.timer x).flags = .oncountdown) ∧
        u32 (r.ctl.tick + timeout) ≤ (r.ctl.timer x).targetTick) ∨
      (r.ctl.timer t).flags = .oncountdown ∧
        (r.ctl.timer (timerLinks.prev r.ctl t)).targetTick < u32 (r.ctl.tick + timeout)
  | _ => True

section NoneLost

variable {r r' : TimerRun} {q q' : List TimerId}

/-- While no armed timer is lost, the flags tell which timers are queued. -/
theorem TimerInv.mem_iff_flags (h : TimerInv r.ctl q) (hn : NoneLost r) (x : TimerId) :
    x ∈ q ↔ (r.ctl.timer x).flags = .free ∨ (r.ctl.timer x).flags = .oncountdown := by
  constructor
  · intro hx
    have halloc := h.marked.alloc_off x hx
    have hguard : (r.ctl.timer x).flags ≠ .guardnode := by
      rw [ne_eq, h.marked.guard]
      rintro rfl
      exact (nodup_cons.mp h.linked.nodup).1 hx
    cases hf : (r.ctl.timer x).flags <;> simp_all
  · rintro (hx | hx)
    · exact h.marked.free_mem x hx
    · exact h.queue_eq ▸ hn x hx

/-- The search of `timer_settimer` succeeds where the timer has a place. -/
theorem TimerInv.armFound_iff {t : TimerId} {timeout : Nat} (data : UInt8)
    (h : TimerInv r.ctl q) (hn : NoneLost r)
    (hf : (r.ctl.timer t).flags = .allocated ∨ (r.ctl.timer t).flags = .oncountdown) :
    ArmFound r.ctl q t timeout ↔ TimerOp.Placeable r (.settimer (some t) timeout data) := by
  have hmem : t ∈ q ↔ (r.ctl.timer t).flags = .oncountdown := by
    rw [h.mem_iff_flags hn]
    rcases hf with hf | hf <;> simp [hf]
  simp only [ArmFound, TimerOp.Placeable, hf, true_imp_iff, hmem,
    (nodup_cons.mp h.linked.nodup).2.mem_erase_iff, h.mem_iff_flags hn, and_assoc]

/-- **A step loses no timer iff** the timer it arms has a place. -/
theorem TimerStep.keeps_noneLost {op : TimerOp} (hs : TimerStep r q op r' q') (h : TimerInv r.ctl q)
    (h' : TimerInv r'.ctl q') (hn : NoneLost r) : NoneLost r' ↔ op.Placeable r := by
  have hnd := (nodup_cons.mp h.linked.nodup).2
  have hq : ∀ t, (r.ctl.timer t).flags = .oncountdown → t ∈ q :=
    fun t ht => h.queue_eq ▸ hn t ht
  simp only [NoneLost, h'.queue_eq]
  cases hs with
  | idle hop =>
    refine iff_of_true hq ?_
    match op, hop with
    | .alloc _, _ | .free _, _ | .settimer none _ _, _ => exact trivial
    | .settimer (some t) _ _, hop => exact fun hf => absurd hf (not_or.mpr hop)
  | @alloc _ t c' _ _ hs =>
    refine iff_of_true (fun x hx => ?_) trivial
    rw [hs.flags] at hx
    by_cases hxt : x = t
    · simp [hxt] at hx
    · rw [TIMERCTL.set_timer, if_neg hxt] at hx
      exact (mem_erase_of_ne hxt).mpr (hq x hx)
  | @settimer t timeout data c' q' hf hs hmem =>
    -- the timer is in the ring iff the search finds a place for it
    rw [← h.armFound_iff data hn hf]
    simp only [hs.flags, hmem, hnd.mem_erase_iff]
    constructor
    · intro hall
      rcases hall t (by simp [armed]) with ⟨hne, -⟩ | ⟨-, hfound⟩
      · exact absurd rfl hne
      · exact hfound
    · intro hfound x hx
      by_cases hxt : x = t
      · exact .inr ⟨hxt, hfound⟩
      · simp only [armed, TIMERCTL.set_timer, if_neg hxt] at hx
        exact .inl ⟨hxt, hq x hx⟩
  | @free t c' _ hs =>
    refine iff_of_true (fun x hx => ?_) trivial
    rw [hs.flags] at hx
    by_cases hxt : x = t
    · simp [freedTimer, TIMER.default, hxt] at hx
    · simp only [freedTimer, TIMERCTL.set_timer, if_neg hxt] at hx
      exact mem_append_left _ ((mem_erase_of_ne hxt).mpr (hq x hx))
  | quiet _ => exact iff_of_true hq trivial
  | fires _ hs =>
    refine iff_of_true (fun x hx => ?_) trivial
    rw [hs.flags, fired_flags] at hx
    split at hx
    next => cases hx
    next hnot =>
      have hx := hq x hx
      rw [← takeWhile_append_dropWhile (p := isDue (ticked r.ctl)) (l := q),
        mem_append] at hx
      exact hx.resolve_left hnot

end NoneLost

/-- Right after `timerctl_init` no timer is armed. -/
theorem timerStart_noneLost (c : TIMERCTL) : NoneLost (timerStart c) := by
  intro t ht
  simp only [timerStart_eq, initTimerctl] at ht
  split at ht <;> cases ht

/-- **No armed timer is lost along a history iff every `timer_settimer` of it
finds a place** for the timer it arms. -/
theorem noneLost_iff (tss : Option TimerId) (c : TIMERCTL) (ops : List TimerOp) :
    (timerMachine tss).AllStates NoneLost (timerStart c) ops ↔
      (timerMachine tss).AllSteps (fun r op => op.Placeable r) (timerStart c) ops := by
  refine Machine.always_iff (fun r (h : (∃ q, TimerInv r.ctl q) ∧ NoneLost r) => h.2) ?_ ?_
    ⟨timerStart_inv c, timerStart_noneLost c⟩
    (Machine.AllSteps.of_mem fun _ _ _ => trivial)
  · rintro r op ⟨⟨q, h⟩, hn⟩ - hok
    obtain ⟨r', q', hr', h', hs⟩ := h.step tss op
    exact ⟨r', hr', trivial, ⟨q', h'⟩, (hs.keeps_noneLost h h' hn).mpr hok⟩
  · rintro r op r' ⟨⟨q, h⟩, hn⟩ - hbad hr' - hn'
    obtain ⟨r'', q', hr'', h', hs⟩ := h.step tss op
    cases hr'.symm.trans hr''
    exact hbad ((hs.keeps_noneLost h h' hn).mp hn')

/-- `timer_alloc_customfifo` hands out the timers in order. -/
theorem alloc_run (tss : Option TimerId) (c : TIMERCTL) (fifo32 : Option Nat) {k : Nat}
    (hk : k < osMaxTimer) :
    ∃ r q, (timerMachine tss).run (timerStart c) (List.replicate k (.alloc fifo32)) = some r ∧
      TimerInv r.ctl q ∧ ∀ x : TimerId, (r.ctl.timer x).flags =
        if x = timerTail then .guardnode else if x.val < k then .allocated else .free := by
  induction k with
  | zero =>
    obtain ⟨q, h⟩ := timerStart_inv c
    refine ⟨timerStart c, q, rfl, h, fun x => ?_⟩
    simp [timerStart_eq, initTimerctl]
  | succ k ih =>
    obtain ⟨r, q, hrun, h, hfl⟩ := ih (Nat.lt_of_succ_lt hk)
    obtain ⟨r', q', hr', h', hs⟩ := h.step tss (.alloc fifo32)
    have hne : ∀ {x : TimerId}, x.val = k → x ≠ timerTail := by
      rintro x hx rfl
      simp only [timerTail] at hx
      omega
    refine ⟨r', q', ?_, h', fun x => ?_⟩
    · rw [replicate_succ', Machine.run_append, hrun, Option.bind_some, Machine.run_cons hr']
      rfl
    · cases hs with
      | idle hno =>
        refine absurd ?_ (hno ⟨k, Nat.lt_of_succ_lt hk⟩)
        rw [hfl, if_neg (hne rfl), if_neg (Nat.lt_irrefl k)]
      | @alloc _ t c' hf hlt hs =>
        -- the timer found is the first free one, number `k`
        have htail : t ≠ timerTail := h.ne_tail (by simp [hf])
        have hge : k ≤ t.val := by
          by_contra hlt'
          rw [hfl, if_neg htail, if_pos (Nat.lt_of_not_le hlt')] at hf
          cases hf
        have hle : t.val ≤ k := by
          by_contra hgt
          refine hlt ⟨k, Nat.lt_of_succ_lt hk⟩ (Fin.lt_def.mpr (Nat.lt_of_not_le hgt)) ?_
          rw [hfl, if_neg (hne rfl), if_neg (Nat.lt_irrefl k)]
        rw [hs.flags, TIMERCTL.set_timer]
        by_cases hxt : x = t
        · rw [if_pos hxt, hxt, if_neg htail, if_pos (by omega)]
        · have hxk : x.val ≠ k := fun hx => hxt (Fin.ext (by omega))
          have hiff : x.val < k + 1 ↔ x.val < k := by omega
          rw [if_neg hxt, hfl]
          simp only [hiff]

/-- Once all 499 timers are allocated the ring is empty, and the first timer
armed then is lost. -/
theorem noneLost_all_allocated : ∃ r, (timerMachine none).run (timerStart initTimerctl)
      (List.replicate 499 (.alloc none) ++ [.settimer (some 0) 10 1]) = some r ∧
    (r.ctl.timer 0).flags = .oncountdown ∧ 0 ∉ r.ctl.queue := by
  obtain ⟨r, q, hrun, h, hfl⟩ := alloc_run none initTimerctl none (k := 499) (by decide)
  have hoff : ∀ x : TimerId, (r.ctl.timer x).flags ≠ .free ∧
      (r.ctl.timer x).flags ≠ .oncountdown := by
    intro x
    have hx : x.val < 500 := x.isLt
    have hval : timerTail.val = 499 := rfl
    have htail : x = timerTail ↔ ¬ x.val < 499 := by
      rw [Fin.ext_iff, hval]
      omega
    rw [hfl]
    split
    next => simp
    next hne => simp [not_not.mp (mt htail.mpr hne)]
  have hf0 : (r.ctl.timer 0).flags = .allocated := by
    rw [hfl, if_neg (by decide), if_pos (by decide)]
  obtain ⟨r', q', hr', h', hs⟩ := h.step none (.settimer (some 0) 10 1)
  refine ⟨r', ?_, ?_⟩
  · rw [Machine.run_append, hrun, Option.bind_some, Machine.run_cons hr', Machine.run_nil]
  · rw [h'.queue_eq]
    cases hs with
    | idle hop => exact absurd hf0 hop.1
    | settimer hf hs hmem =>
      have hn : NoneLost r := fun t ht => absurd ht (hoff t).2
      refine ⟨by rw [hs.flags]; simp [armed], ?_⟩
      rw [hmem, (nodup_cons.mp h.linked.nodup).2.mem_erase_iff,
        h.armFound_iff 1 hn hf]
      simp [TimerOp.Placeable, hoff, hf0]

end UnagiOs
