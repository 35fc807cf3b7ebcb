import Mathlib.Data.List.TakeWhile
import UnagiOs.Pic.TimerRun

/-!
# Timers fire once and on time

`timer_int_handler` looks at the ring only once the tick has reached
`next_alarm_on_tick`, so a timer fires on time as long as no queued timer is due
before the alarm (`OnTime`). The alarm is maintained in five places, and one of
them is off: when a running timer that is due at the alarm is set again or
freed, the alarm moves on to its *successor* on the ring. If the timer is the
last of several that are due together (`LastOfTie`), the ones before it are left
behind the alarm, which `timer_late_after_tie` shows.

`timer_fires_once`: along every history without such a call, an armed timer
fires exactly once, at its tick.
-/

namespace UnagiOs

open Links List

/-- The timer is the last of several running timers that are due at the alarm. -/
def LastOfTie (c : TIMERCTL) (t : TimerId) : Prop :=
  (c.timer t).flags = .oncountdown ∧ c.nextAlarmOnTick = (c.timer t).targetTick ∧
    timerLinks.prev c t ≠ c.listtail ∧
    (c.timer t).targetTick < (c.timer (timerLinks.next c t)).targetTick

instance (c : TIMERCTL) (t : TimerId) : Decidable (LastOfTie c t) :=
  inferInstanceAs (Decidable (_ ∧ _))

/-- The last of a tie is neither freed nor put off. -/
def TimerOp.KeepsTies (c : TIMERCTL) : TimerOp → Prop
  | .settimer (some t) timeout _ =>
    LastOfTie c t → u32 (c.tick + timeout) ≤ (c.timer t).targetTick
  | .free (some t) => ¬ LastOfTie c t
  | _ => True

instance (c : TIMERCTL) : ∀ op : TimerOp, Decidable (op.KeepsTies c)
  | .settimer (some _) _ _ => inferInstanceAs (Decidable (_ → _))
  | .free (some _) => inferInstanceAs (Decidable (¬ _))
  | .settimer none _ _ | .free none | .alloc _ | .interrupt => isTrue trivial

/-- The greatest tick or target that the call sets. -/
def TimerOp.reach (c : TIMERCTL) : TimerOp → Nat
  | .settimer (some t) timeout _ =>
    if (c.timer t).flags = .allocated ∨ (c.timer t).flags = .oncountdown then c.tick + timeout
    else c.tick
  | .interrupt => c.tick + 1
  | _ => c.tick

/-- Some timer is free, and no tick or target reaches the greatest 32-bit number. -/
def TimerOp.Tame (c : TIMERCTL) (op : TimerOp) : Prop :=
  (∃ x, (c.timer x).flags = .free) ∧ op.reach c < uint32Max

instance (c : TIMERCTL) (op : TimerOp) : Decidable (op.Tame c) :=
  inferInstanceAs (Decidable (_ ∧ _))

/-! ## No queued timer is due before the alarm -/

/-- No armed timer is lost and no queued timer is due before the alarm. -/
structure OnTime (r : TimerRun) (q : List TimerId) : Prop where
  ring : TimerInv r.ctl q
  none_lost : NoneLost r
  alarm_le_max : r.ctl.nextAlarmOnTick ≤ uint32Max
  alarm_le : ∀ x ∈ q, r.ctl.nextAlarmOnTick ≤ (r.ctl.timer x).targetTick

section OnTime

variable {r r' : TimerRun} {q q' : List TimerId} {op : TimerOp} {t : TimerId}

/-- While a timer is free, every armed timer finds a place. -/
theorem TimerOp.Tame.placeable (hop : op.Tame r.ctl) (h : TimerInv r.ctl q) : op.Placeable r := by
  obtain ⟨⟨x, hx⟩, -⟩ := hop
  match op with
  | .alloc _ | .free _ | .interrupt | .settimer none _ _ => exact trivial
  | .settimer (some t) timeout _ =>
    intro hf
    refine .inl ⟨x, ?_, .inl hx, ?_⟩
    · rintro rfl
      simp [hx] at hf
    · rw [h.marked.free_target x hx]
      exact u32_le_max _

theorem TimerInv.skippedAlarm_le_max {c : TIMERCTL} (h : TimerInv c q)
    (halarm : c.nextAlarmOnTick ≤ uint32Max) (t : TimerId) : skippedAlarm c t ≤ uint32Max := by
  unfold skippedAlarm
  split
  · exact h.marked.target_le _
  · exact halarm

/-- The alarm skips a timer that is not the last of a tie without passing another. -/
theorem OnTime.skippedAlarm_le (h : OnTime r q) (ht : ¬ LastOfTie r.ctl t) :
    ∀ x ∈ q.erase t, skippedAlarm r.ctl t ≤ (r.ctl.timer x).targetTick := by
  intro x hx
  have hxq := mem_of_mem_erase hx
  unfold skippedAlarm
  split
  next halarm =>
    have htq : t ∈ q := h.ring.queue_eq ▸ h.none_lost t halarm.1
    obtain ⟨q₁, q₂, rfl⟩ := append_of_mem htq
    have hnd := h.ring.linked.nodup
    have hprev := h.ring.linked.ring.prev_mem
    have hnext := h.ring.linked.ring.next_mem
    rcases eq_nil_or_concat q₁ with rfl | ⟨q₀, p, rfl⟩
    · -- the timer is the first: all others come after it
      rw [nil_append, erase_cons_head] at hx
      cases q₂ with
      | nil => cases hx
      | cons y q₂ =>
        have hsorted := (pairwise_cons.mp (pairwise_cons.mp h.ring.marked.sorted).2).1
        rw [hnext]
        rcases mem_cons.mp hx with rfl | hx
        · exact Nat.le_refl _
        · exact hsorted x hx
    · have hp : timerLinks.prev r.ctl t ≠ r.ctl.listtail := by
        rw [hprev, h.ring.marked.tail]
        rintro hp
        simp_all
      have hle : (r.ctl.timer (timerLinks.next r.ctl t)).targetTick ≤
          (r.ctl.timer t).targetTick :=
        Nat.le_of_not_lt fun hlt => ht ⟨halarm.1, halarm.2, hp, hlt⟩
      exact (hle.trans halarm.2.ge).trans (h.alarm_le x hxq)
  next => exact h.alarm_le x hxq

/-- **A call that keeps ties keeps the timers on time.** -/
theorem OnTime.step (h : OnTime r q) (hs : TimerStep r q op r' q') (h' : TimerInv r'.ctl q')
    (htame : op.Tame r.ctl) (hkeeps : op.KeepsTies r.ctl) : OnTime r' q' := by
  have hn := (hs.keeps_noneLost h.ring h' h.none_lost).mpr (htame.placeable h.ring)
  cases hs with
  | idle _ => exact h
  | @alloc fifo32 t c' hf _ hs =>
    refine ⟨h', hn, hs.alarm ▸ h.alarm_le_max, fun x hx => ?_⟩
    rw [hs.alarm, hs.target]
    have hx' := h.alarm_le x (mem_of_mem_erase hx)
    by_cases hxt : x = t
    · rw [hxt] at hx'
      simpa [hxt, TIMERCTL.set] using hx'
    · simpa [hxt, TIMERCTL.set] using hx'
  | @settimer t timeout data c' q' hf hs hmem =>
    refine ⟨h', hn, ?_, fun x hx => ?_⟩
    · rw [hs.alarm]
      exact (Nat.min_le_right _ _).trans (u32_le_max _)
    · rw [hs.alarm, hs.target]
      simp only [armed, TIMERCTL.set_timer]
      by_cases hxt : x = t
      · rw [if_pos hxt]
        exact Nat.min_le_right _ _
      · have hx : x ∈ q.erase t := ((hmem x).mp hx).resolve_right fun hx => hxt hx.1
        rw [if_neg hxt]
        by_cases htie : LastOfTie r.ctl t
        · -- the timer is not put off, so its own target keeps the alarm early
          refine (Nat.min_le_right _ _).trans ((hkeeps htie).trans ?_)
          exact htie.2.1 ▸ h.alarm_le x (mem_of_mem_erase hx)
        · exact (Nat.min_le_left _ _).trans (h.skippedAlarm_le htie x hx)
  | @free t c' hf hs =>
    refine ⟨h', hn, ?_, fun x hx => ?_⟩
    · rw [hs.alarm]
      exact h.ring.skippedAlarm_le_max h.alarm_le_max t
    · rw [hs.alarm, hs.target]
      simp only [freedTimer, TIMERCTL.set_timer]
      by_cases hxt : x = t
      · rw [if_pos hxt]
        exact h.ring.skippedAlarm_le_max h.alarm_le_max t
      · rw [if_neg hxt]
        refine h.skippedAlarm_le hkeeps x ?_
        simpa [hxt] using hx
  | quiet _ => exact ⟨h', hn, h.alarm_le_max, h.alarm_le⟩
  | fires _ hs =>
    refine ⟨h', hn, ?_, fun x hx => ?_⟩
    · rw [hs.alarm]
      exact h.ring.marked.target_le _
    · -- the queue is sorted, so the first timer left is due first
      rw [hs.alarm, hs.target]
      have hsorted : (q.dropWhile (isDue (ticked r.ctl))).Pairwise (dueBefore r.ctl) :=
        h.ring.marked.sorted.sublist (dropWhile_sublist _)
      simp only [fired_target]
      show _ ≤ (r.ctl.timer x).targetTick
      cases hq : q.dropWhile (isDue (ticked r.ctl)) with
      | nil => simp [hq] at hx
      | cons y l =>
        rw [hq] at hx hsorted
        rcases mem_cons.mp hx with rfl | hx
        · exact Nat.le_refl _
        · exact (pairwise_cons.mp hsorted).1 x hx

theorem OnTime.start (c : TIMERCTL) : ∃ q, OnTime (timerStart c) q := by
  obtain ⟨q, h⟩ := timerStart_inv c
  refine ⟨q, h, timerStart_noneLost c, ?_, fun x _ => ?_⟩ <;>
    simp [timerStart_eq, initTimerctl]

end OnTime

/-! ## The life of one armed timer -/

/-- An armed timer: its tick and timeout at the call, its FIFO and data, and the
firings before it. -/
structure Alarm where
  timer : TimerId
  tick : Nat
  timeout : Nat
  fifo : Option Nat
  data : UInt8
  log : List Firing

namespace Alarm

/-- The tick at which the timer is to fire. -/
def due (a : Alarm) : Nat := a.tick + max a.timeout 1

/-- The firing it asks for. -/
def firing (a : Alarm) : Firing := ⟨a.timer, a.fifo, a.data, a.due⟩

/-- Since the timer was armed, it has fired as `fs` says. -/
def Logged (a : Alarm) (r : TimerRun) (fs : List Firing) : Prop :=
  ∃ l, r.log = a.log ++ l ∧ l.filter (fun f => decide (f.timer = a.timer)) = fs

/-- The timer is running. -/
structure Waiting (a : Alarm) (r : TimerRun) : Prop where
  fields : (r.ctl.timer a.timer).fields = (a.tick + a.timeout, .oncountdown, a.fifo, a.data)
  tick_ge : a.tick ≤ r.ctl.tick
  tick_lt : r.ctl.tick < a.due
  logged : a.Logged r []

/-- The timer has fired. -/
structure Done (a : Alarm) (r : TimerRun) : Prop where
  flags : (r.ctl.timer a.timer).flags = .allocated
  tick_ge : a.due ≤ r.ctl.tick
  logged : a.Logged r [a.firing]

end Alarm

/-- The call neither sets nor frees the timer. -/
def TimerOp.Spares (t : TimerId) : TimerOp → Prop
  | .settimer (some x) _ _ => x ≠ t
  | .free (some x) => x ≠ t
  | _ => True

instance (t : TimerId) : ∀ op : TimerOp, Decidable (op.Spares t)
  | .settimer (some _) _ _ => inferInstanceAs (Decidable (¬ _))
  | .free (some _) => inferInstanceAs (Decidable (¬ _))
  | .settimer none _ _ | .free none | .alloc _ | .interrupt => isTrue trivial

section Life

variable {r r' : TimerRun} {q q' : List TimerId} {op : TimerOp} {t : TimerId} {a : Alarm}
  {c : TIMERCTL}

theorem Alarm.Waiting.target (h : a.Waiting r) :
    (r.ctl.timer a.timer).targetTick = a.tick + a.timeout :=
  congrArg Prod.fst h.fields

theorem Alarm.Waiting.flags (h : a.Waiting r) : (r.ctl.timer a.timer).flags = .oncountdown :=
  congrArg (fun v => v.2.1) h.fields

/-- A call other than the interrupt that spares a timer in use leaves its fields,
the tick and the log as they are. -/
theorem TimerStep.spares (hs : TimerStep r q op r' q') (hsp : op.Spares t)
    (hf : (r.ctl.timer t).flags ≠ .free) (hop : op ≠ .interrupt) :
    r'.log = r.log ∧ r'.ctl.tick = r.ctl.tick ∧
      (r'.ctl.timer t).fields = (r.ctl.timer t).fields := by
  cases hs with
  | idle _ => exact ⟨rfl, rfl, rfl⟩
  | @alloc _ x _ hx _ hs =>
    have hne : t ≠ x := fun h => hf (h ▸ hx)
    refine ⟨rfl, hs.tick, (hs.fields t).trans ?_⟩
    rw [TIMERCTL.set_timer, if_neg hne]
  | @settimer x _ _ _ _ _ hs _ =>
    refine ⟨rfl, hs.tick, (hs.fields t).trans ?_⟩
    rw [armed, TIMERCTL.set_timer, if_neg (Ne.symm hsp)]
  | @free x _ _ hs =>
    refine ⟨rfl, hs.tick, (hs.fields t).trans ?_⟩
    rw [freedTimer, TIMERCTL.set_timer, if_neg (Ne.symm hsp)]
  | quiet _ => exact absurd rfl hop
  | fires _ _ => exact absurd rfl hop

theorem Alarm.Logged.append {fs fs' : List Firing} (h : a.Logged r fs) {l : List Firing}
    (hlog : r'.log = r.log ++ l)
    (hl : l.filter (fun f => decide (f.timer = a.timer)) = fs') : a.Logged r' (fs ++ fs') := by
  obtain ⟨l₀, hl₀, hfs⟩ := h
  refine ⟨l₀ ++ l, by rw [hlog, hl₀, append_assoc], ?_⟩
  rw [filter_append, hfs, hl]

/-- The firings of an interrupt that are a given timer's. -/
theorem filter_firing {l : List TimerId} (hnd : l.Nodup) (t : TimerId) :
    (l.map (firing c)).filter (fun f => decide (f.timer = t)) =
      if t ∈ l then [firing c t] else [] := by
  have hcomp : (fun f : Firing => decide (f.timer = t)) ∘ firing c = fun x => decide (x = t) := rfl
  rw [filter_map, hcomp, filter_eq, hnd.count]
  split <;> simp

/-- What fires is due. -/
theorem due_of_mem_takeWhile (ht : t ∈ q.takeWhile (isDue c)) :
    (c.timer t).targetTick ≤ c.tick := by
  have hdue := mem_takeWhile_imp ht
  exact of_decide_eq_true hdue

/-- On a sorted queue the timers that fire are all those that are due. -/
theorem mem_takeWhile_isDue (hq : q.Pairwise (dueBefore c)) :
    t ∈ q.takeWhile (isDue c) ↔ t ∈ q ∧ (c.timer t).targetTick ≤ c.tick := by
  constructor
  · exact fun ht => ⟨(List.takeWhile_prefix _).subset ht, due_of_mem_takeWhile ht⟩
  rintro ⟨ht, hdue⟩
  induction q with
  | nil => cases ht
  | cons x q ih =>
    have hx : isDue c x = true := by
      rcases mem_cons.mp ht with rfl | ht
      · exact decide_eq_true hdue
      · exact decide_eq_true (((pairwise_cons.mp hq).1 t ht).trans hdue)
    rw [takeWhile_cons_of_pos hx]
    rcases mem_cons.mp ht with rfl | ht
    · exact mem_cons_self
    · exact mem_cons_of_mem _ (ih (pairwise_cons.mp hq).2 ht)

/-- The tick does not wrap at an interrupt. -/
theorem TimerOp.Tame.tick_succ (h : TimerOp.interrupt.Tame r.ctl) :
    (ticked r.ctl).tick = r.ctl.tick + 1 := by
  have hlt := h.2
  simp only [TimerOp.reach, uint32Max] at hlt
  exact u32_of_lt (by omega)

/-- What an interrupt that reaches the alarm does to one timer. -/
theorem OnTime.fires_timer (h : OnTime r q) {c' : TIMERCTL} (t : TimerId)
    (hs : SameData { fired (ticked r.ctl) (q.takeWhile (isDue (ticked r.ctl))) with
      nextAlarmOnTick :=
        (r.ctl.timer ((q.dropWhile (isDue (ticked r.ctl))).headD timerTail)).targetTick } c') :
    (c'.timer t).flags = (if t ∈ q ∧ (r.ctl.timer t).targetTick ≤ (ticked r.ctl).tick
      then .allocated else (r.ctl.timer t).flags) ∧
    ((q.takeWhile (isDue (ticked r.ctl))).map (firing (ticked r.ctl))).filter
        (fun f => decide (f.timer = t)) =
      if t ∈ q ∧ (r.ctl.timer t).targetTick ≤ (ticked r.ctl).tick
      then [firing (ticked r.ctl) t] else [] := by
  have hnd : (q.takeWhile (isDue (ticked r.ctl))).Nodup :=
    (nodup_cons.mp h.ring.linked.nodup).2.sublist (takeWhile_sublist _)
  have hsorted : q.Pairwise (dueBefore (ticked r.ctl)) := h.ring.marked.sorted
  have hmem : t ∈ q.takeWhile (isDue (ticked r.ctl)) ↔
      t ∈ q ∧ (r.ctl.timer t).targetTick ≤ (ticked r.ctl).tick := mem_takeWhile_isDue hsorted
  refine ⟨?_, ?_⟩
  · rw [hs.flags, fired_flags]
    simp only [hmem]
    rfl
  · rw [filter_firing hnd]
    simp only [hmem]

/-- An interrupt leaves a running timer so until its tick, and then fires it. -/
theorem Alarm.Waiting.interrupt (h : a.Waiting r) (hon : OnTime r q)
    (hs : TimerStep r q .interrupt r' q') (htame : TimerOp.interrupt.Tame r.ctl) :
    a.Waiting r' ∨ a.Done r' := by
  have hmem : a.timer ∈ q := hon.ring.queue_eq ▸ hon.none_lost a.timer h.flags
  have htick := htame.tick_succ
  have hlt := h.tick_lt
  have hge := h.tick_ge
  simp only [due] at hlt
  cases hs with
  | idle hop => exact hop.elim
  | quiet hquiet =>
    -- the timer is due no earlier than the alarm
    have halarm := hon.alarm_le a.timer hmem
    change (ticked r.ctl).tick < _ at hquiet
    rw [h.target] at halarm
    refine .inl ⟨h.fields, ?_, ?_, h.logged⟩ <;>
      simp only [htick, due] <;> omega
  | @fires c' _ hs =>
    obtain ⟨hflags, hfired⟩ := hon.fires_timer a.timer hs
    have hlog : a.Logged ⟨c', _⟩ ([] ++ _) := h.logged.append rfl hfired
    have htick' : c'.tick = r.ctl.tick + 1 := hs.tick.trans htick
    rw [h.target, htick] at hflags hlog
    by_cases hdue : a.tick + a.timeout ≤ r.ctl.tick + 1
    · rw [if_pos ⟨hmem, hdue⟩] at hflags hlog
      have hat : a.due = r.ctl.tick + 1 := by
        simp only [due]
        omega
      refine .inr ⟨hflags, ?_, ?_⟩
      · rw [htick', hat]
      · have hfiring : UnagiOs.firing (ticked r.ctl) a.timer = a.firing := by
          have hfifo : (r.ctl.timer a.timer).fifo = a.fifo := congrArg (fun v => v.2.2.1) h.fields
          have hdata : (r.ctl.timer a.timer).data = a.data := congrArg (fun v => v.2.2.2) h.fields
          simp only [UnagiOs.firing, Alarm.firing, htick, hat, ← hfifo, ← hdata]
          rfl
        rwa [hfiring] at hlog
    · rw [if_neg fun hd => hdue hd.2] at hflags hlog
      refine .inl ⟨(hs.fields _).trans ((fired_fields _ _ _).trans ?_), ?_, ?_, hlog⟩
      · rw [if_neg fun hin => hdue ?_]
        · exact h.fields
        · rw [← h.target, ← htick]
          exact due_of_mem_takeWhile hin
      · simp only [htick']
        omega
      · simp only [due, htick']
        omega

/-- A timer that has fired does not fire again. -/
theorem Alarm.Done.interrupt (h : a.Done r) (hon : OnTime r q)
    (hs : TimerStep r q .interrupt r' q') (htame : TimerOp.interrupt.Tame r.ctl) : a.Done r' := by
  have hoff : a.timer ∉ q := fun hq => hon.ring.marked.alloc_off _ hq h.flags
  have htick := htame.tick_succ
  have hge := h.tick_ge
  cases hs with
  | idle hop => exact hop.elim
  | quiet _ => exact ⟨h.flags, by simp only [htick]; omega, h.logged⟩
  | @fires c' _ hs =>
    obtain ⟨hflags, hfired⟩ := hon.fires_timer a.timer hs
    have hlog : a.Logged ⟨c', _⟩ ([a.firing] ++ _) := h.logged.append rfl hfired
    rw [if_neg fun hd => hoff hd.1] at hflags hlog
    have htick' : c'.tick = r.ctl.tick + 1 := hs.tick.trans htick
    exact ⟨hflags.trans h.flags, by simp only [htick']; omega, hlog⟩

/-- **A call that spares an armed timer** leaves it running until its tick, when
the interrupt fires it, and leaves it alone from then on. -/
theorem Alarm.step (h : a.Waiting r ∨ a.Done r) (hon : OnTime r q) (hs : TimerStep r q op r' q')
    (hsp : op.Spares a.timer) (htame : op.Tame r.ctl) : a.Waiting r' ∨ a.Done r' := by
  by_cases hop : op = .interrupt
  · subst hop
    rcases h with h | h
    · exact h.interrupt hon hs htame
    · exact .inr (h.interrupt hon hs htame)
  · have hf : (r.ctl.timer a.timer).flags ≠ .free := by
      rcases h with h | h <;> simp [h.flags]
    obtain ⟨hlog, htick, hsame⟩ := hs.spares hsp hf hop
    have hlogged : ∀ {fs}, a.Logged r fs → a.Logged r' fs :=
      fun ⟨l, hl, hfs⟩ => ⟨l, hlog.trans hl, hfs⟩
    rcases h with h | h
    · exact .inl ⟨hsame.trans h.fields, htick ▸ h.tick_ge, htick ▸ h.tick_lt, hlogged h.logged⟩
    · exact .inr ⟨(congrArg (fun v => v.2.1) hsame).trans h.flags, htick ▸ h.tick_ge,
        hlogged h.logged⟩

/-- `timer_settimer` starts the wait. -/
theorem TimerStep.waiting {timeout : Nat} {data : UInt8}
    (hs : TimerStep r q (.settimer (some t) timeout data) r' q') (hd : data ≠ 0)
    (hf : (r.ctl.timer t).flags = .allocated ∨ (r.ctl.timer t).flags = .oncountdown)
    (htame : TimerOp.Tame r.ctl (.settimer (some t) timeout data)) :
    Alarm.Waiting ⟨t, r.ctl.tick, timeout, (r.ctl.timer t).fifo, data, r.log⟩ r' := by
  have hreach := htame.2
  simp only [TimerOp.reach, if_pos hf, uint32Max] at hreach
  have htarget : u32 (r.ctl.tick + timeout) = r.ctl.tick + timeout := u32_of_lt (by omega)
  cases hs with
  | idle hop => exact absurd hf (not_or.mpr hop)
  | settimer _ hs _ =>
    have hfields := hs.fields t
    simp only [armed, TIMERCTL.set_timer, if_pos, if_neg hd, htarget] at hfields
    refine ⟨hfields, hs.tick.ge, ?_, [], (append_nil _).symm, rfl⟩
    simp only [hs.tick, Alarm.due]
    exact Nat.lt_add_of_pos_right (by omega)

end Life

/-- **Along a history that keeps ties, a timer fires exactly once and on time.**
While some timer is free and neither tick nor target reaches the maximum: after
`timer_settimer` of a timer in use, and as long as the timer is neither set again
nor freed, its data is enqueued exactly once, by the interrupt that reaches its
tick, and the timer is then allocated. Enqueued means that `mpfifo32_enqueue` is
called with it: a FIFO that is full, or `NULL`, drops it. -/
theorem timer_fires_once (tss : Option TimerId) (c : TIMERCTL) (ops₁ ops₂ : List TimerOp)
    (t : TimerId) (timeout : Nat) (data : UInt8) (r₁ : TimerRun)
    (hok : (timerMachine tss).AllSteps (fun r op => op.Tame r.ctl ∧ op.KeepsTies r.ctl)
      (timerStart c) (ops₁ ++ .settimer (some t) timeout data :: ops₂))
    (hrun : (timerMachine tss).run (timerStart c) ops₁ = some r₁)
    (hf : (r₁.ctl.timer t).flags = .allocated ∨ (r₁.ctl.timer t).flags = .oncountdown)
    (hd : data ≠ 0) (hsp : ∀ op ∈ ops₂, op.Spares t) :
    ∃ r₂, (timerMachine tss).run (timerStart c)
        (ops₁ ++ .settimer (some t) timeout data :: ops₂) = some r₂ ∧
      (r₂.log.drop r₁.log.length).filter (fun f => decide (f.timer = t)) =
        (if r₁.ctl.tick + max timeout 1 ≤ r₂.ctl.tick then
          [⟨t, (r₁.ctl.timer t).fifo, data, r₁.ctl.tick + max timeout 1⟩] else []) ∧
      (r₂.ctl.timer t).flags =
        if r₁.ctl.tick + max timeout 1 ≤ r₂.ctl.tick then .allocated else .oncountdown := by
  have hstep : ∀ (r : TimerRun) (op : TimerOp), (∃ q, OnTime r q) →
      op.Tame r.ctl ∧ op.KeepsTies r.ctl → ∃ r', (timerMachine tss).step r op = some r' ∧
        ∃ q, OnTime r' q := by
    rintro r op ⟨q, h⟩ ⟨htame, hkeeps⟩
    obtain ⟨r', q', hr', h', hs⟩ := h.ring.step tss op
    exact ⟨r', hr', q', h.step hs h' htame hkeeps⟩
  obtain ⟨hok₁, ⟨htame, hkeeps⟩, hok₂⟩ := hok.split hrun
  obtain ⟨r, hr, q, hon⟩ := Machine.run_of_inv hstep (OnTime.start c) hok₁
  cases hrun.symm.trans hr
  obtain ⟨r', q', hr', h', hs⟩ := hon.ring.step tss (.settimer (some t) timeout data)
  -- from here on the timer waits for its tick or has fired
  let a : Alarm := ⟨t, r₁.ctl.tick, timeout, (r₁.ctl.timer t).fifo, data, r₁.log⟩
  have hlife : ∀ (r : TimerRun) (op : TimerOp),
      (∃ q, OnTime r q ∧ (a.Waiting r ∨ a.Done r)) →
      (op.Tame r.ctl ∧ op.KeepsTies r.ctl) ∧ op.Spares t →
      ∃ r', (timerMachine tss).step r op = some r' ∧
        ∃ q, OnTime r' q ∧ (a.Waiting r' ∨ a.Done r') := by
    rintro r op ⟨q, h, ha⟩ ⟨⟨htame, hkeeps⟩, hsp⟩
    obtain ⟨r', q', hr', h', hs⟩ := h.ring.step tss op
    exact ⟨r', hr', q', h.step hs h' htame hkeeps, Alarm.step ha h hs hsp htame⟩
  obtain ⟨r₂, hr₂, q₂, -, ha⟩ := Machine.run_of_inv hlife
    ⟨q', hon.step hs h' htame hkeeps, .inl (hs.waiting hd hf htame)⟩
    ((hok₂ r' hr').and (Machine.AllSteps.of_mem fun op hop _ => hsp op hop))
  refine ⟨r₂, ?_, ?_⟩
  · rw [Machine.run_append, hrun, Option.bind_some, Machine.run_cons hr', hr₂]
  · rcases ha with ⟨hfields, -, hlt, l, hlog, hl⟩ | ⟨hflags, hge, l, hlog, hl⟩
    · have hnot : ¬ r₁.ctl.tick + max timeout 1 ≤ r₂.ctl.tick := Nat.not_le.mpr hlt
      rw [if_neg hnot, if_neg hnot, hlog, drop_left]
      exact ⟨hl, congrArg (fun v => v.2.1) hfields⟩
    · have hle : r₁.ctl.tick + max timeout 1 ≤ r₂.ctl.tick := hge
      rw [if_pos hle, if_pos hle, hlog, drop_left]
      exact ⟨hl, hflags⟩

/-- The first timer, set to two ticks, at the second interrupt. -/
theorem timer_fires_once_at_two :
    ∃ r₁ r₂, (timerMachine none).run (timerStart initTimerctl) [.alloc (some 7)] = some r₁ ∧
      (timerMachine none).run (timerStart initTimerctl)
        ([.alloc (some 7)] ++ .settimer (some 0) 2 5 :: [.interrupt, .interrupt]) = some r₂ ∧
      (r₂.log.drop r₁.log.length).filter (fun f => decide (f.timer = 0)) =
        (if r₁.ctl.tick + max 2 1 ≤ r₂.ctl.tick then
          [⟨0, (r₁.ctl.timer 0).fifo, 5, r₁.ctl.tick + max 2 1⟩] else []) ∧
      (r₂.ctl.timer 0).flags =
        if r₁.ctl.tick + max 2 1 ≤ r₂.ctl.tick then .allocated else .oncountdown := by
  have hrun : (timerMachine none).run (timerStart initTimerctl) [.alloc (some 7)] =
      some ⟨(timerAllocCustomfifo initTimerctl (some 7)).1, []⟩ := by
    rw [timerStart_eq]
    rfl
  obtain ⟨r₂, h⟩ := timer_fires_once none initTimerctl [.alloc (some 7)] [.interrupt, .interrupt]
    0 2 5 _ (by rw [timerStart_eq]; decide +kernel) hrun (by decide +kernel) (by decide)
    (by decide +kernel)
  exact ⟨_, r₂, hrun, h⟩

/-- Timers 0 and 1 are both due at tick 1. Timer 1 is queued first, and freeing
timer 0 takes the alarm past it: at tick 1 timer 1 does not fire. -/
theorem timer_late_after_tie :
    (timerMachine none).AllSteps (fun r op => op.Tame r.ctl) (timerStart initTimerctl)
      [.alloc (some 1), .alloc (some 2), .settimer (some 0) 1 5, .settimer (some 1) 1 6,
        .free (some 0), .interrupt] ∧
    ((timerMachine none).run (timerStart initTimerctl)
      [.alloc (some 1), .alloc (some 2), .settimer (some 0) 1 5, .settimer (some 1) 1 6,
        .free (some 0), .interrupt]).map
      (fun r => (r.ctl.tick, (r.ctl.timer 1).targetTick, (r.ctl.timer 1).flags, r.log)) =
      some (1, 1, .oncountdown, []) := by
  rw [timerStart_eq]
  decide +kernel

end UnagiOs
