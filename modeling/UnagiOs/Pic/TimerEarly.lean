import UnagiOs.Pic.TimerFiring

/-!
# Timers that fire early

Targets are absolute 32-bit ticks, compared as plain numbers. A timer is not early
as long as none of the ticks before its timeout is past its target (`Later`), and the
target wraps where that fails: set so far ahead that `tick + timeout` passes the end of
the range, a timer is due in the past and the next interrupt fires it.

`timer_not_early_iff`: whatever else is done with the timers, a timer that is not set
again is not early iff its target does not wrap. (At the last tick of the range it may:
the next interrupt wraps the tick as well.)
-/

namespace UnagiOs

open List

/-- The call is an interrupt of the clock. -/
def TimerOp.isInterrupt : TimerOp → Bool
  | .interrupt => true
  | _ => false

/-- The number of interrupts in a history. -/
def interrupts (ops : List TimerOp) : Nat := ops.countP TimerOp.isInterrupt

/-- The call sets the timer. -/
def TimerOp.Sets (t : TimerId) : TimerOp → Prop
  | .settimer (some x) _ _ => x = t
  | _ => False

/-- From tick `n` on, the interrupts before the one numbered `timeout` are not past the target. -/
def Later (n timeout target : Nat) : Prop :=
  ∀ j, 0 < j → j < timeout → u32 (n + j) < target

section Later

variable {n timeout target : Nat}

/-- A target that is set in range is late enough iff it does not wrap before the tick does. -/
theorem later_iff (hn : n < 2 ^ 32) (ht : timeout < 2 ^ 32) :
    Later n timeout (u32 (n + timeout)) ↔ n + timeout < 2 ^ 32 ∨ n = uint32Max := by
  unfold Later u32 uint32Max
  constructor
  · intro h
    by_contra hwrap
    -- the first interrupt is past a target that wraps
    have h1 := h 1
    omega
  · intro h j hj hjt
    omega

theorem Later.max (h : Later n timeout target) (ht : target ≤ uint32Max) :
    Later n timeout uint32Max :=
  fun j hj hjt => Nat.lt_of_lt_of_le (h j hj hjt) ht

end Later

/-! ## Ticks and the alarm stay in range -/

/-- The tick and the alarm are 32-bit numbers. -/
structure InRange (r : TimerRun) (q : List TimerId) : Prop where
  ring : TimerInv r.ctl q
  tick_lt : r.ctl.tick < 2 ^ 32
  alarm_le : r.ctl.nextAlarmOnTick ≤ uint32Max

section Range

variable {r r' : TimerRun} {q q' : List TimerId} {op : TimerOp} {t : TimerId} {ops : List TimerOp}
  {n timeout k : Nat} {log : List Firing} {data : UInt8}

theorem InRange.step (h : InRange r q) (hs : TimerStep r q op r' q') (h' : TimerInv r'.ctl q') :
    InRange r' q' := by
  have hu32 : ∀ k, u32 k < 2 ^ 32 := fun k => Nat.mod_lt _ (by decide)
  cases hs with
  | idle _ => exact h
  | alloc _ _ hs => exact ⟨h', hs.tick ▸ h.tick_lt, hs.alarm ▸ h.alarm_le⟩
  | @settimer t timeout _ _ _ _ hs _ =>
    refine ⟨h', hs.tick ▸ h.tick_lt, ?_⟩
    rw [hs.alarm]
    exact (Nat.min_le_right _ _).trans (u32_le_max _)
  | @free t _ _ hs =>
    exact ⟨h', hs.tick ▸ h.tick_lt, hs.alarm ▸ h.ring.skippedAlarm_le_max h.alarm_le t⟩
  | quiet _ => exact ⟨h', hu32 _, h.alarm_le⟩
  | fires _ hs =>
    refine ⟨h', hs.tick ▸ hu32 _, ?_⟩
    rw [hs.alarm]
    exact h.ring.marked.target_le _

theorem InRange.start (c : TIMERCTL) : ∃ q, InRange (timerStart c) q := by
  obtain ⟨q, h⟩ := timerStart_inv c
  refine ⟨q, h, ?_, ?_⟩ <;> simp [timerStart_eq, initTimerctl]

theorem InRange.run (tss : Option TimerId) {c : TIMERCTL}
    (hrun : (timerMachine tss).run (timerStart c) ops = some r) : ∃ q, InRange r q := by
  have hstep : ∀ (r : TimerRun) (op : TimerOp), (∃ q, InRange r q) → True →
      ∃ r', (timerMachine tss).step r op = some r' ∧ ∃ q, InRange r' q := by
    rintro r op ⟨q, h⟩ -
    obtain ⟨r', q', hr', h', hs⟩ := h.ring.step tss op
    exact ⟨r', hr', q', h.step hs h'⟩
  obtain ⟨r', hr', h⟩ := Machine.run_of_inv hstep (InRange.start c)
    (Machine.AllSteps.of_mem fun _ _ _ => trivial)
  cases hrun.symm.trans hr'
  exact h

/-! ## A target that does not wrap -/

/-- `k` interrupts after tick `n`, the timer has not fired and is not due before its timeout. -/
structure NotYet (t : TimerId) (n timeout : Nat) (log : List Firing) (k : Nat) (r : TimerRun) :
    Prop where
  later : Later n timeout (r.ctl.timer t).targetTick
  tick : r.ctl.tick = u32 (n + k)
  quiet : ∃ l, r.log = log ++ l ∧ ∀ f ∈ l, f.timer ≠ t

/-- The target of a timer that is not set stays, or goes to the maximum when it is freed. -/
theorem TimerStep.target (hs : TimerStep r q op r' q') (hop : ¬ op.Sets t) :
    (r'.ctl.timer t).targetTick = (r.ctl.timer t).targetTick ∨
      (r'.ctl.timer t).targetTick = uint32Max := by
  cases hs with
  | idle _ => exact .inl rfl
  | @alloc _ x _ _ _ hs =>
    refine .inl ?_
    rw [hs.target]
    by_cases htx : t = x <;> simp [htx]
  | @settimer x _ _ _ _ _ hs _ =>
    refine .inl ?_
    rw [hs.target]
    simp [armed, show t ≠ x from fun heq => hop heq.symm]
  | @free x _ _ hs =>
    rw [hs.target]
    by_cases htx : t = x <;> simp [freedTimer, TIMER.default, htx]
  | quiet _ => exact .inl rfl
  | fires _ hs =>
    refine .inl ?_
    rw [hs.target]
    exact fired_target _ _ _

/-- An interrupt other than the one numbered `timeout` does not fire the timer. -/
theorem NotYet.step (h : NotYet t n timeout log k r) (hr : TimerInv r.ctl q)
    (hs : TimerStep r q op r' q') (hop : ¬ op.Sets t)
    (hk : k + (if op.isInterrupt then 1 else 0) < timeout) :
    NotYet t n timeout log (k + (if op.isInterrupt then 1 else 0)) r' := by
  have hlater : Later n timeout (r'.ctl.timer t).targetTick := by
    rcases hs.target hop with htarget | htarget
    · rw [htarget]
      exact h.later
    · rw [htarget]
      exact h.later.max (hr.marked.target_le t)
  have hticked : u32 (r.ctl.tick + 1) = u32 (n + (k + 1)) := by
    rw [h.tick]
    simp only [u32]
    omega
  cases hs with
  | idle hidle =>
    cases op with
    | interrupt => exact hidle.elim
    | _ => exact h
  | alloc _ _ hs => exact ⟨hlater, hs.tick.trans h.tick, h.quiet⟩
  | settimer _ hs _ => exact ⟨hlater, hs.tick.trans h.tick, h.quiet⟩
  | free _ hs => exact ⟨hlater, hs.tick.trans h.tick, h.quiet⟩
  | quiet _ => exact ⟨hlater, hticked, h.quiet⟩
  | fires _ hs =>
    refine ⟨hlater, hs.tick.trans hticked, ?_⟩
    obtain ⟨l, hlog, hl⟩ := h.quiet
    refine ⟨l ++ _, by rw [hlog, append_assoc], fun f hf => ?_⟩
    rcases mem_append.mp hf with hf | hf
    · exact hl f hf
    · obtain ⟨x, hx, rfl⟩ := mem_map.mp hf
      rintro rfl
      have hdue : (r.ctl.timer x).targetTick ≤ u32 (r.ctl.tick + 1) := due_of_mem_takeWhile hx
      have hlt := h.later (k + 1) (Nat.succ_pos k) hk
      rw [hticked] at hdue
      exact absurd hdue (Nat.not_le.mpr hlt)

/-- **A whole history** of fewer than `timeout` interrupts does not fire the timer. -/
theorem NotYet.run (tss : Option TimerId) (hops : ∀ op ∈ ops, ¬ op.Sets t) (hr : TimerInv r.ctl q)
    (h : NotYet t n timeout log k r) (hk : k + interrupts ops < timeout) :
    ∃ r', (timerMachine tss).run r ops = some r' ∧
      NotYet t n timeout log (k + interrupts ops) r' := by
  induction ops generalizing r q k with
  | nil => exact ⟨r, rfl, h⟩
  | cons op ops ih =>
    have hcount : k + interrupts (op :: ops) =
        k + (if op.isInterrupt then 1 else 0) + interrupts ops := by
      rw [interrupts, countP_cons, interrupts]
      omega
    rw [hcount] at hk ⊢
    obtain ⟨r₁, q₁, hr₁, h₁, hs⟩ := hr.step tss op
    rw [Machine.run_cons hr₁]
    exact ih (fun op hop => hops op (mem_cons_of_mem _ hop)) h₁
      (h.step hr hs (hops op mem_cons_self) (by omega)) hk

/-! ## A target that wraps -/

/-- An interrupt that reaches the alarm fires every queued timer that is due. -/
theorem TimerStep.fires_due (hr : TimerInv r.ctl q) (hs : TimerStep r q .interrupt r' q')
    (halarm : r.ctl.nextAlarmOnTick ≤ u32 (r.ctl.tick + 1)) (ht : t ∈ q)
    (hdue : (r.ctl.timer t).targetTick ≤ u32 (r.ctl.tick + 1)) :
    ∃ f ∈ r'.log.drop r.log.length, f.timer = t := by
  cases hs with
  | idle hop => exact hop.elim
  | quiet hquiet => exact absurd halarm (Nat.not_le.mpr hquiet)
  | fires _ hs =>
    have hsorted : q.Pairwise (dueBefore (ticked r.ctl)) := hr.marked.sorted
    have hmem : t ∈ q.takeWhile (isDue (ticked r.ctl)) :=
      (mem_takeWhile_isDue hsorted).mpr ⟨ht, hdue⟩
    rw [drop_left]
    exact ⟨_, mem_map_of_mem hmem, rfl⟩

/-- An interrupt leaves a queued timer that is not due on the queue. -/
theorem TimerStep.keeps_queued (hs : TimerStep r q .interrupt r' q') (ht : t ∈ q)
    (hdue : u32 (r.ctl.tick + 1) < (r.ctl.timer t).targetTick) :
    t ∈ q' ∧ (r'.ctl.timer t).targetTick = (r.ctl.timer t).targetTick ∧
      r'.ctl.tick = u32 (r.ctl.tick + 1) ∧ ∃ l, r'.log = r.log ++ l := by
  cases hs with
  | idle hop => exact hop.elim
  | quiet _ => exact ⟨ht, rfl, rfl, [], (append_nil _).symm⟩
  | fires _ hs =>
    refine ⟨?_, (hs.target t).trans (fired_target _ _ _), hs.tick, _, rfl⟩
    have hsplit := takeWhile_append_dropWhile (p := isDue (ticked r.ctl)) (l := q)
    rw [← hsplit, mem_append] at ht
    exact ht.resolve_left fun hmem => absurd hdue (Nat.not_lt.mpr (due_of_mem_takeWhile hmem))

/-- A queued timer whose target is the maximum fires when the tick gets there. -/
theorem InRange.fires_at_max (tss : Option TimerId) (h : InRange r q) (ht : t ∈ q)
    (htarget : (r.ctl.timer t).targetTick = uint32Max) (hk : r.ctl.tick + (k + 1) = uint32Max) :
    ∃ r', (timerMachine tss).run r (List.replicate (k + 1) .interrupt) = some r' ∧
      ∃ f ∈ r'.log.drop r.log.length, f.timer = t := by
  induction k generalizing r q with
  | zero =>
    obtain ⟨r₁, q₁, hr₁, h₁, hs⟩ := h.ring.step tss .interrupt
    refine ⟨r₁, by rw [replicate_one, Machine.run_cons hr₁, Machine.run_nil], ?_⟩
    have hmax : u32 (r.ctl.tick + 1) = uint32Max := by
      rw [hk]
      rfl
    exact hs.fires_due h.ring (hmax.symm ▸ h.alarm_le) ht (by rw [htarget, hmax])
  | succ k ih =>
    obtain ⟨r₁, q₁, hr₁, h₁, hs⟩ := h.ring.step tss .interrupt
    have htick : u32 (r.ctl.tick + 1) = r.ctl.tick + 1 := by
      refine u32_of_lt ?_
      unfold uint32Max at hk
      omega
    obtain ⟨ht₁, htarget₁, htick₁, l, hlog⟩ := hs.keeps_queued ht (by omega)
    obtain ⟨r', hrun, f, hf, hft⟩ := ih (h.step hs h₁) ht₁ (htarget₁.trans htarget) (by omega)
    refine ⟨r', by rw [replicate_succ, Machine.run_cons hr₁, hrun], f, ?_, hft⟩
    rw [hlog, length_append, ← drop_drop] at hf
    exact mem_of_mem_drop hf

/-! ## Setting a timer -/

/-- `timer_settimer` of a timer in use starts the wait, if the target does not wrap. -/
theorem TimerStep.notYet (hs : TimerStep r q (.settimer (some t) timeout data) r' q')
    (hr : InRange r q)
    (hf : (r.ctl.timer t).flags = .allocated ∨ (r.ctl.timer t).flags = .oncountdown)
    (hlater : Later r.ctl.tick timeout (u32 (r.ctl.tick + timeout))) :
    NotYet t r.ctl.tick timeout r.log 0 r' := by
  cases hs with
  | idle hop => exact absurd hf (not_or.mpr hop)
  | settimer _ hs _ =>
    refine ⟨?_, hs.tick.trans (u32_of_lt hr.tick_lt).symm, [], (append_nil _).symm, nofun⟩
    rwa [hs.armed_target, if_pos rfl]

theorem interrupts_free_replicate (t : TimerId) (k : Nat) :
    interrupts (.free (some t) :: List.replicate k .interrupt) = k := by
  simp [interrupts, TimerOp.isInterrupt, countP_replicate]

section Wraps

variable {timeout : Nat} {data : UInt8} {c' : TIMERCTL} (tss : Option TimerId)
  (hs : SameData (armed r.ctl t timeout data) c') (hr' : InRange ⟨c', r.log⟩ q')
  (htick : r.ctl.tick < uint32Max)

include hs hr' htick

/-- A timer that is set to a target that wraps is due in the past: the next interrupt
fires it. -/
theorem fires_wrapped (hlt : timeout < 2 ^ 32) (hwrap : 2 ^ 32 ≤ r.ctl.tick + timeout)
    (ht : t ∈ q') :
    ∃ r₂, (timerMachine tss).run ⟨c', r.log⟩ [.interrupt] = some r₂ ∧
      ∃ f ∈ r₂.log.drop r.log.length, f.timer = t := by
  have hpast : u32 (r.ctl.tick + timeout) < u32 (c'.tick + 1) := by
    rw [hs.tick]
    simp only [armed, TIMERCTL.set, u32, uint32Max] at htick ⊢
    omega
  obtain ⟨r₂, q₂, hr₂, -, hs₂⟩ := hr'.ring.step tss .interrupt
  refine ⟨r₂, by rw [Machine.run_cons hr₂, Machine.run_nil], ?_⟩
  refine TimerStep.fires_due (r := ⟨c', r.log⟩) hr'.ring hs₂ ?_ ht ?_
  · have halarm : c'.nextAlarmOnTick ≤ u32 (r.ctl.tick + timeout) :=
      hs.alarm.trans_le (Nat.min_le_right _ _)
    exact halarm.trans (Nat.le_of_lt hpast)
  · have htarget : (c'.timer t).targetTick = u32 (r.ctl.tick + timeout) := by
      rw [hs.armed_target, if_pos rfl]
    exact htarget.trans_le (Nat.le_of_lt hpast)

/-- Freeing an armed timer puts it at the end of the queue, due at the last tick. -/
theorem fires_freed :
    ∃ r₂, (timerMachine tss).run ⟨c', r.log⟩
        (.free (some t) :: List.replicate (uint32Max - r.ctl.tick) .interrupt) = some r₂ ∧
      ∃ f ∈ r₂.log.drop r.log.length, f.timer = t := by
  obtain ⟨r₁, q₁, hr₁, h₁, hs₁⟩ := hr'.ring.step tss (.free (some t))
  have hrange₁ := hr'.step hs₁ h₁
  cases hs₁ with
  | idle hop => exact absurd (hs.armed_flags.symm.trans hop) (by decide)
  | @free _ c₁ _ hs₁ =>
    have htick₁ : c₁.tick = r.ctl.tick := hs₁.tick.trans hs.tick
    obtain ⟨k, hk⟩ : ∃ k, uint32Max - r.ctl.tick = k + 1 :=
      ⟨uint32Max - r.ctl.tick - 1, by omega⟩
    rw [Machine.run_cons hr₁, hk]
    exact hrange₁.fires_at_max tss (by simp) (by simp [hs₁.target, freedTimer, TIMER.default])
      (by simp only [htick₁]; omega)

end Wraps

/-- `timer_settimer` with a target that wraps: the next interrupt fires the timer, or, where
the timer found no place, it fires at the last tick once it has been freed. -/
theorem TimerStep.early (tss : Option TimerId)
    (hs : TimerStep r q (.settimer (some t) timeout data) r' q') (hr' : InRange r' q')
    (hf : (r.ctl.timer t).flags = .allocated ∨ (r.ctl.timer t).flags = .oncountdown)
    (htick : r.ctl.tick < uint32Max) (hlt : timeout < 2 ^ 32)
    (hwrap : 2 ^ 32 ≤ r.ctl.tick + timeout) :
    ∃ ops r₂, (∀ op ∈ ops, ¬ op.Sets t) ∧ interrupts ops < timeout ∧
      (timerMachine tss).run r' ops = some r₂ ∧ ∃ f ∈ r₂.log.drop r.log.length, f.timer = t := by
  cases hs with
  | idle hop => exact absurd hf (not_or.mpr hop)
  | @settimer _ _ _ c' q' _ hs hmem =>
    unfold uint32Max at htick
    by_cases hfound : ArmFound r.ctl q t timeout
    · obtain ⟨r₂, hrun, hfires⟩ := fires_wrapped tss hs hr' htick hlt hwrap
        ((hmem t).mpr (.inr ⟨rfl, hfound⟩))
      refine ⟨[.interrupt], r₂, by simp [TimerOp.Sets], ?_, hrun, hfires⟩
      show 1 < timeout
      omega
    · obtain ⟨r₂, hrun, hfires⟩ := fires_freed tss hs hr' htick
      refine ⟨_, r₂, fun op hop => ?_, ?_, hrun, hfires⟩
      · rcases mem_cons.mp hop with rfl | hop
        · exact id
        · rw [eq_of_mem_replicate hop]
          exact id
      · rw [interrupts_free_replicate, uint32Max]
        omega

end Range

/-- **A timer fires early iff its target wraps.** A timer in use is set at a tick, in any
state that a history leads to. Then no history in which it is not set again fires it at one
of the first `timeout - 1` interrupts iff the sum of tick and timeout is a 32-bit number, or
the tick is the last one of the range. -/
theorem timer_not_early_iff (tss : Option TimerId) (c : TIMERCTL) (ops₁ : List TimerOp)
    (t : TimerId) (timeout : Nat) (data : UInt8) (r₁ : TimerRun)
    (hrun : (timerMachine tss).run (timerStart c) ops₁ = some r₁)
    (hf : (r₁.ctl.timer t).flags = .allocated ∨ (r₁.ctl.timer t).flags = .oncountdown)
    (ht : timeout < 2 ^ 32) :
    (∀ ops₂, (∀ op ∈ ops₂, ¬ op.Sets t) → interrupts ops₂ < timeout →
      ∃ r₂, (timerMachine tss).run r₁ (.settimer (some t) timeout data :: ops₂) = some r₂ ∧
        ∀ f ∈ r₂.log.drop r₁.log.length, f.timer ≠ t) ↔
      r₁.ctl.tick + timeout < 2 ^ 32 ∨ r₁.ctl.tick = uint32Max := by
  obtain ⟨q₁, hr₁⟩ := InRange.run tss hrun
  obtain ⟨r, q, hr, h, hs⟩ := hr₁.ring.step tss (.settimer (some t) timeout data)
  constructor
  · intro hquiet
    by_contra hwrap
    rw [not_or, Nat.not_lt] at hwrap
    have hmax : r₁.ctl.tick ≠ uint32Max := hwrap.2
    have htick : r₁.ctl.tick < uint32Max := by
      have hlt := hr₁.tick_lt
      unfold uint32Max at hmax ⊢
      omega
    obtain ⟨ops, r₂, hops, hcount, hrun₂, f, hfire, hft⟩ := hs.early tss (hr₁.step hs h) hf
      htick ht hwrap.1
    obtain ⟨r₂', hrun₂', hnone⟩ := hquiet ops hops hcount
    rw [Machine.run_cons hr, hrun₂] at hrun₂'
    cases hrun₂'
    exact hnone f hfire hft
  · intro hsum ops₂ hops hcount
    have hlater := (later_iff hr₁.tick_lt ht).mpr hsum
    obtain ⟨r₂, hrun₂, hnot⟩ := (hs.notYet hr₁ hf hlater).run tss hops h (by omega)
    refine ⟨r₂, by rw [Machine.run_cons hr, hrun₂], ?_⟩
    obtain ⟨l, hlog, hl⟩ := hnot.quiet
    rw [hlog, drop_left]
    exact hl

/-- The first timer, set to two ticks. -/
theorem timer_not_early_iff_two_ticks : ∃ r₁, (timerMachine none).run (timerStart initTimerctl)
      [.alloc (some 7)] = some r₁ ∧
    ∀ ops₂, (∀ op ∈ ops₂, ¬ op.Sets 0) → interrupts ops₂ < 2 →
      ∃ r₂, (timerMachine none).run r₁ (.settimer (some 0) 2 5 :: ops₂) = some r₂ ∧
        ∀ f ∈ r₂.log.drop r₁.log.length, f.timer ≠ 0 := by
  have hrun : (timerMachine none).run (timerStart initTimerctl) [.alloc (some 7)] =
      some ⟨(timerAllocCustomfifo initTimerctl (some 7)).1, []⟩ := by
    rw [timerStart_eq]
    rfl
  exact ⟨_, hrun, (timer_not_early_iff none initTimerctl [.alloc (some 7)] 0 2 5 _ hrun
    (by decide +kernel) (by decide)).mpr (by decide +kernel)⟩

/-- At tick 1 the first timer is set to the greatest timeout, "forever". Its target is
tick 0, and the next interrupt fires it. -/
theorem timer_forever_fires_at_once : ((timerMachine none).run (timerStart initTimerctl)
      [.alloc (some 7), .interrupt, .settimer (some 0) 0xffffffff 5, .interrupt]).map
      (fun r => ((r.ctl.timer 0).targetTick, r.log)) = some (0, [⟨0, some 7, 5, 2⟩]) := by
  rw [timerStart_eq]
  decide +kernel

end UnagiOs
