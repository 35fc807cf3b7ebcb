import UnagiOs.Pic.TimerQueue
import UnagiOs.Theory.Slots

/-!
# The functions of timer.c on a queue of timers

One lemma per function: the queue it leaves behind (`TimerInv`), and the fields
of the new state, given as `SameData` to a state without the list surgery. The
histories of timer.c are then reasoned about through these lemmas alone.

- `TimerInv.alloc`, `TimerInv.settimer`, `TimerInv.free`, `TimerInv.handler`.
- `timerctlInit_inv`: `timerctl_init` links all timers but the guard, in order.
-/

namespace UnagiOs

open Links List

variable {c : TIMERCTL} {q : List TimerId} {t : TimerId}

theorem TimerInv.ne_tail (h : TimerInv c q) (ht : (c.timer t).flags ≠ .guardnode) :
    t ≠ timerTail :=
  fun he => ht ((h.marked.guard t).mpr he)

/-- A state in which only `tick` and the alarm differ has the same queue. -/
theorem TimerInv.congr {c' : TIMERCTL} (h : TimerInv c q) (htail : c'.listtail = c.listtail)
    (ht : c'.timer = c.timer) : TimerInv c' q :=
  ⟨h.linked.congr fun x => by rw [ht], h.marked.congr htail (by simp [ht]) (by simp [ht])⟩

/-! ## `timer_alloc_customfifo` -/

/-- `timer_alloc_customfifo` takes the first free timer off the queue. -/
theorem TimerInv.alloc (h : TimerInv c q) (fifo : Option Nat) :
    (timerAllocCustomfifo c fifo = (c, none) ∧ ∀ t, (c.timer t).flags ≠ .free) ∨
    ∃ t c', timerAllocCustomfifo c fifo = (c', some t) ∧ (c.timer t).flags = .free ∧
      (∀ x < t, (c.timer x).flags ≠ .free) ∧ TimerInv c' (q.erase t) ∧
      SameData (c.set t { c.timer t with flags := .allocated, fifo := fifo }) c' := by
  unfold timerAllocCustomfifo
  cases hf : (List.finRange osMaxTimer).find? fun t => decide ((c.timer t).flags = .free) with
  | none =>
    refine .inl ⟨rfl, fun t ht => ?_⟩
    exact of_decide_eq_false (find?_finRange_eq_none_iff.mp hf t) ht
  | some t =>
    obtain ⟨ht, hlt⟩ := find?_finRange_eq_some_iff.mp hf
    have ht : (c.timer t).flags = .free := of_decide_eq_true ht
    have htail := h.ne_tail (t := t) (by rw [ht]; decide)
    have hdata := dlistRemove_sameData
      (c.set t { c.timer t with flags := .allocated, fifo := fifo }) t
    refine .inr ⟨t, _, rfl, ht, fun x hx => of_decide_eq_false (hlt x hx), ⟨?_, ?_⟩, hdata⟩
    · exact Linked.remove (h.linked.congr fun x => by
        by_cases hx : x = t <;> simp [hx]) htail
    · exact (h.marked.set_erase (v := { c.timer t with flags := .allocated, fifo := fifo })
        (nodup_cons.mp h.linked.nodup).2 htail (by simp) (by simp)
        (h.marked.target_le t)).sameData hdata

/-! ## `timer_settimer` -/

/-- `next_alarm_on_tick` after `timer_settimer` and `timer_free` have stepped
over a timer that counts down. -/
def skippedAlarm (c : TIMERCTL) (t : TimerId) : Nat :=
  if (c.timer t).flags = .oncountdown ∧ c.nextAlarmOnTick = (c.timer t).targetTick then
    (c.timer (timerLinks.next c t)).targetTick
  else c.nextAlarmOnTick

theorem skippedAlarm_of_ne (ht : (c.timer t).flags ≠ .oncountdown) :
    skippedAlarm c t = c.nextAlarmOnTick :=
  if_neg fun h => ht h.1

theorem timerSkipAlarm_eq (ht : (c.timer t).flags = .oncountdown) :
    timerSkipAlarm c t = { c with nextAlarmOnTick := skippedAlarm c t } := by
  simp only [timerSkipAlarm, skippedAlarm, ht, true_and]
  split <;> rfl

theorem timerArm_eq (c : TIMERCTL) (t : TimerId) (timeout : Nat) (data : UInt8) :
    timerArm c t timeout data = { c.set t { c.timer t with
        targetTick := u32 (c.tick + timeout), flags := .oncountdown, data := data } with
      nextAlarmOnTick := min c.nextAlarmOnTick (u32 (c.tick + timeout)) } := by
  simp only [timerArm, TIMERCTL.set]
  split
  next hlt => rw [Nat.min_eq_right (Nat.le_of_lt hlt)]
  next hge => rw [Nat.min_eq_left (Nat.le_of_not_lt hge)]

/-- The fields after `timer_settimer` of an allocated or running timer. -/
def armed (c : TIMERCTL) (t : TimerId) (timeout : Nat) (data : UInt8) : TIMERCTL :=
  { c.set t { c.timer t with
      targetTick := u32 (c.tick + timeout)
      flags := .oncountdown
      data := if data = 0 then (c.timer t).data else data } with
    nextAlarmOnTick := min (skippedAlarm c t) (u32 (c.tick + timeout)) }

/-- The search of `timer_settimer` finds a place: some other queued timer is due
no earlier, or the search starts at the old predecessor and so meets the guard. -/
def ArmFound (c : TIMERCTL) (q : List TimerId) (t : TimerId) (timeout : Nat) : Prop :=
  (∃ x ∈ q.erase t, u32 (c.tick + timeout) ≤ (c.timer x).targetTick) ∨
    (t ∈ q ∧ (c.timer (timerLinks.prev c t)).targetTick < u32 (c.tick + timeout))

theorem u32_le_max (n : Nat) : u32 n ≤ uint32Max := by
  unfold u32 uint32Max
  omega

/-- Setting the fields of a timer that is off the queue keeps the queue. -/
theorem TimerInv.arm (timeout : Nat) (data : UInt8) (hl : Linked c timerTail (q.erase t))
    (hm : Marked c q) (hnd : q.Nodup) (ht : t ≠ timerTail) :
    TimerInv (timerArm c t timeout data) (q.erase t) := by
  rw [timerArm_eq]
  refine ⟨hl.congr fun x => ?_, Marked.congr (hm.set_erase hnd ht (by simp) (by simp)
    (u32_le_max _)) rfl (fun _ => rfl) fun _ => rfl⟩
  by_cases hx : x = t <;> simp [hx]

/-- The search after the timer has been armed, from the guard. -/
theorem TimerInv.insert_guard (h : TimerInv c q) (ht : t ∉ timerTail :: q)
    (hf : (c.timer t).flags = .oncountdown) :
    ∃ c' q', timerInsertSorted c timerTail t = some c' ∧ TimerInv c' q' ∧ SameData c c' ∧
      ∀ x, x ∈ q' ↔ x ∈ q ∨ x = t ∧ ∃ y ∈ q, dueBefore c t y := by
  obtain ⟨c', hc', hdata, hl⟩ := timerInsertSorted_guard h.linked ht
  refine ⟨c', _, hc', ⟨hl, ?_⟩, hdata, fun x => ?_⟩
  · split
    · exact (h.marked.insert (by rw [hf]; decide)).sameData hdata
    · exact h.marked.sameData hdata
  · split
    next hy =>
      rw [mem_orderedInsert]
      tauto
    next hy => exact ⟨.inl, fun hx => hx.resolve_right fun hx => hy hx.2⟩

/-- The search after the timer has been armed, from a predecessor due earlier. -/
theorem TimerInv.insert_member {p : TimerId} {q₁ q₂ : List TimerId}
    (h : TimerInv c (q₁ ++ p :: q₂)) (ht : t ∉ timerTail :: (q₁ ++ p :: q₂))
    (hf : (c.timer t).flags = .oncountdown)
    (hp : (c.timer p).targetTick < (c.timer t).targetTick) :
    ∃ c' q', timerInsertSorted c p t = some c' ∧ TimerInv c' q' ∧ SameData c c' ∧
      ∀ x, x ∈ q' ↔ x ∈ q₁ ++ p :: q₂ ∨ x = t := by
  have hguard : dueBefore c t timerTail := by
    rw [dueBefore, h.marked.guard_target]
    exact h.marked.target_le t
  have hbefore : ∀ y ∈ q₁ ++ [p], ¬ dueBefore c t y := by
    intro y hy hd
    have hyp : (c.timer y).targetTick ≤ (c.timer p).targetTick := by
      rcases mem_append.mp hy with hy | hy
      · exact (pairwise_append.mp h.marked.sorted).2.2 y hy p mem_cons_self
      · rw [mem_singleton.mp hy]
    exact absurd (Nat.lt_of_le_of_lt hyp hp) (Nat.not_lt.mpr hd)
  obtain ⟨c', hc', hdata, hl⟩ := timerInsertSorted_member h.linked ht hguard hbefore
  refine ⟨c', _, hc', ⟨hl, (h.marked.insert (by rw [hf]; decide)).sameData hdata⟩, hdata,
    fun x => ?_⟩
  rw [mem_orderedInsert]
  exact or_comm

/-- The predecessor of a queued timer is the guard or the member before it. -/
theorem TimerInv.prev_cases (h : TimerInv c q) (ht : t ∈ q) :
    (timerLinks.prev c t = timerTail) ∨
      ∃ q₁ p q₂, q = q₁ ++ p :: t :: q₂ ∧ timerLinks.prev c t = p := by
  obtain ⟨q₁, q₂, rfl⟩ := append_of_mem ht
  have hprev := h.linked.ring.prev_mem
  rcases eq_nil_or_concat q₁ with rfl | ⟨q₀, p, rfl⟩
  · exact .inl hprev
  · refine .inr ⟨q₀, p, q₂, by simp, ?_⟩
    rw [hprev]
    simp

theorem SameData.arm {c₁ c₂ : TIMERCTL} (h : SameData c₁ c₂) (t : TimerId) (timeout : Nat)
    (data : UInt8) :
    SameData (timerArm c₁ t timeout data) (timerArm c₂ t timeout data) := by
  rw [timerArm_eq, timerArm_eq]
  refine ⟨h.tick, h.listtail, ?_, fun x => ?_⟩
  · simp only [h.alarm, h.tick]
  · by_cases hx : x = t <;> simp [TIMER.fields, hx, h.tick, h.target, h.flags, h.fifo, h.data]

/-- The two parts of the search's condition, read in the armed state. -/
theorem armFound_iff {c' : TIMERCTL} {timeout : Nat} {data : UInt8} (hnd : q.Nodup)
    (hs : SameData (armed c t timeout data) c') :
    ArmFound c q t timeout ↔ (∃ x ∈ q.erase t, dueBefore c' t x) ∨
      (t ∈ q ∧ (c.timer (timerLinks.prev c t)).targetTick < u32 (c.tick + timeout)) := by
  refine or_congr_left (exists_congr fun x => and_congr_right fun hx => ?_)
  have hne : x ≠ t := by
    rintro rfl
    exact hnd.not_mem_erase hx
  rw [dueBefore, hs.target, hs.target]
  simp [armed, hne]

/-- What `timer_settimer` of an allocated or running timer answers: the timer is armed,
and it is on the queue if the search found a place. -/
def Rearmed (c : TIMERCTL) (q : List TimerId) (t : TimerId) (timeout : Nat) (data : UInt8)
    (r : Option TIMERCTL) : Prop :=
  ∃ c' q', r = some c' ∧ TimerInv c' q' ∧ SameData (armed c t timeout data) c' ∧
    ∀ x, x ∈ q' ↔ x ∈ q.erase t ∨ x = t ∧ ArmFound c q t timeout

section Search

variable {c₃ : TIMERCTL} {timeout : Nat} {data : UInt8} (hs : SameData (armed c t timeout data) c₃)
include hs

theorem SameData.armed_flags : (c₃.timer t).flags = .oncountdown := by
  rw [hs.flags]
  simp [armed]

theorem SameData.armed_target (x : TimerId) :
    (c₃.timer x).targetTick = if x = t then u32 (c.tick + timeout) else (c.timer x).targetTick := by
  rw [hs.target]
  by_cases hx : x = t <;> simp [armed, hx]

variable (hnd : q.Nodup) (htail : t ≠ timerTail) (harm : TimerInv c₃ (q.erase t))
include hnd htail harm

/-- The search starts at the guard: the predecessor is not due earlier. -/
theorem Rearmed.from_guard
    (hno : ¬ (t ∈ q ∧ (c.timer (timerLinks.prev c t)).targetTick < u32 (c.tick + timeout))) :
    Rearmed c q t timeout data (timerInsertSorted c₃ timerTail t) := by
  have hoff : t ∉ timerTail :: q.erase t :=
    not_mem_cons_of_ne_of_not_mem htail hnd.not_mem_erase
  obtain ⟨c', q', hc', hinv, hs', hmem⟩ := harm.insert_guard hoff hs.armed_flags
  refine ⟨c', q', hc', hinv, hs.trans hs', fun x => ?_⟩
  rw [hmem, armFound_iff hnd hs, or_iff_left hno]

/-- The search starts at the predecessor, which is due earlier. -/
theorem Rearmed.from_prev {p : TimerId} {q₁ q₂ : List TimerId} (hq : q = q₁ ++ p :: t :: q₂)
    (hp : timerLinks.prev c t = p) (hlt : (c.timer p).targetTick < u32 (c.tick + timeout)) :
    Rearmed c q t timeout data (timerInsertSorted c₃ p t) := by
  have hsplit : q = (q₁ ++ [p]) ++ t :: q₂ := by rw [hq]; simp
  have herase : q.erase t = q₁ ++ p :: q₂ := by
    rw [hsplit] at hnd ⊢
    rw [erase_middle hnd]
    simp
  have hoff : t ∉ timerTail :: q.erase t :=
    not_mem_cons_of_ne_of_not_mem htail hnd.not_mem_erase
  have hpt : p ≠ t := by
    rintro rfl
    rw [herase] at hoff
    simp at hoff
  rw [herase] at harm hoff
  obtain ⟨c', q', hc', hinv, hs', hmem⟩ := harm.insert_member hoff hs.armed_flags
    (by rw [hs.armed_target, hs.armed_target, if_neg hpt, if_pos rfl]; exact hlt)
  refine ⟨c', q', hc', hinv, hs.trans hs', fun x => ?_⟩
  rw [hmem, herase, ArmFound, hp]
  simp [hq, hlt]

end Search

/-- `timer_settimer` of a timer that does not count down. -/
theorem TimerInv.settimer_allocated (h : TimerInv c q) (timeout : Nat) (data : UInt8)
    (hf : (c.timer t).flags = .allocated) :
    Rearmed c q t timeout data (timerSettimer c (some t) timeout data) := by
  have htail : t ≠ timerTail := h.ne_tail (by rw [hf]; decide)
  have hnd := (nodup_cons.mp h.linked.nodup).2
  have hq : t ∉ q := fun hq => h.marked.alloc_off t hq hf
  have harmed : timerArm c t timeout (if data = 0 then (c.timer t).data else data) =
      armed c t timeout data := by
    rw [timerArm_eq, armed, skippedAlarm_of_ne (by rw [hf]; decide)]
  have harm := TimerInv.arm timeout (if data = 0 then (c.timer t).data else data)
    ((erase_of_not_mem hq).symm ▸ h.linked) h.marked hnd htail
  rw [harmed] at harm
  simp only [timerSettimer, hf, harmed, harm.marked.tail]
  exact .from_guard (SameData.refl _) hnd htail harm fun hlt => hq hlt.1

/-- `timer_settimer` of a timer that counts down, which leaves its place in the list first. -/
theorem TimerInv.settimer_running (h : TimerInv c q) (timeout : Nat) (data : UInt8)
    (hf : (c.timer t).flags = .oncountdown) :
    Rearmed c q t timeout data (timerSettimer c (some t) timeout data) := by
  have htail : t ≠ timerTail := h.ne_tail (by rw [hf]; decide)
  have hnd := (nodup_cons.mp h.linked.nodup).2
  have hskip : TimerInv { c with nextAlarmOnTick := skippedAlarm c t } q := h.congr rfl rfl
  have hrem := dlistRemove_sameData { c with nextAlarmOnTick := skippedAlarm c t } t
  have harm := TimerInv.arm timeout (if data = 0 then (c.timer t).data else data)
    (hskip.linked.remove htail) (hskip.marked.sameData hrem) hnd htail
  have hs : SameData (armed c t timeout data) (timerArm (dlistRemove timerLinks
      { c with nextAlarmOnTick := skippedAlarm c t } t) t timeout
      (if data = 0 then (c.timer t).data else data)) := by
    have := hrem.arm t timeout (if data = 0 then (c.timer t).data else data)
    rwa [timerArm_eq] at this
  have hprev : timerLinks.prev { c with nextAlarmOnTick := skippedAlarm c t } t =
      timerLinks.prev c t := rfl
  simp only [timerSettimer, hf, timerSkipAlarm_eq hf, hprev]
  generalize timerArm (dlistRemove timerLinks { c with nextAlarmOnTick := skippedAlarm c t } t) t
    timeout (if data = 0 then (c.timer t).data else data) = c₃ at *
  rw [harm.marked.tail, hs.armed_target, hs.armed_target, if_pos rfl]
  by_cases hq : t ∈ q
  · rcases h.prev_cases hq with hp | ⟨q₁, p, q₂, hsplit, hp⟩
    · -- first in the queue: nothing is due later than the guard
      have hge : ¬ (c.timer timerTail).targetTick < u32 (c.tick + timeout) := by
        rw [h.marked.guard_target]
        exact Nat.not_lt.mpr (u32_le_max _)
      rw [hp, if_neg (Ne.symm htail), if_neg hge]
      exact .from_guard hs hnd htail harm fun hlt => hge (hp ▸ hlt.2)
    · have hpt : p ≠ t := by
        rintro rfl
        rw [hsplit] at hnd
        simp [nodup_append] at hnd
      rw [hp, if_neg hpt]
      split
      next hlt => exact .from_prev hs hnd htail harm hsplit hp hlt
      next hge => exact .from_guard hs hnd htail harm fun hlt => hge (hp ▸ hlt.2)
  · -- off the queue: it is its own predecessor
    have hp : timerLinks.prev c t = t :=
      (ring_nil.mp (h.linked.alone t (not_mem_cons_of_ne_of_not_mem htail hq))).2
    rw [hp, if_pos rfl, if_neg (Nat.lt_irrefl _)]
    exact .from_guard hs hnd htail harm fun hlt => hq hlt.1

/-- **`timer_settimer` of an allocated or running timer** re-arms it, and puts
it on the queue if the search finds a place. -/
theorem TimerInv.settimer (h : TimerInv c q) (timeout : Nat) (data : UInt8)
    (hf : (c.timer t).flags = .allocated ∨ (c.timer t).flags = .oncountdown) :
    ∃ c' q', timerSettimer c (some t) timeout data = some c' ∧ TimerInv c' q' ∧
      SameData (armed c t timeout data) c' ∧
      ∀ x, x ∈ q' ↔ x ∈ q.erase t ∨ x = t ∧ ArmFound c q t timeout := by
  rcases hf with hf | hf
  · exact h.settimer_allocated timeout data hf
  · exact h.settimer_running timeout data hf

/-- `timer_settimer` ignores free timers and the guard. -/
theorem timerSettimer_other {timeout : Nat} {data : UInt8} (h1 : (c.timer t).flags ≠ .allocated)
    (h2 : (c.timer t).flags ≠ .oncountdown) :
    timerSettimer c (some t) timeout data = some c := by
  cases hf : (c.timer t).flags with
  | free => simp only [timerSettimer, hf]
  | allocated => exact absurd hf h1
  | oncountdown => exact absurd hf h2
  | guardnode => simp only [timerSettimer, hf]

/-! ## `timer_free` -/

/-- The fields that `__timer_set_default_params` sets. -/
def TIMER.default (v : TIMER) : TIMER :=
  { v with flags := .free, data := 0, fifo := none, targetTick := uint32Max }

/-- The fields after `__timer_set_default_params`. -/
theorem timerSetDefaultParams_sameData (c : TIMERCTL) (t : TimerId) :
    SameData (c.set t (c.timer t).default) (timerSetDefaultParams c t) :=
  dlistInit_sameData _ t

/-- A timer off the ring stays off it. -/
theorem Linked.setDefaultParams {g : TimerId} (h : Linked c g q) (ht : t ∉ g :: q) :
    Linked (timerSetDefaultParams c t) g q := by
  refine Linked.init (h.congr fun x => ?_) ht
  by_cases hx : x = t <;> simp [hx]

/-- The fields after `timer_free`. -/
def freedTimer (c : TIMERCTL) (t : TimerId) : TIMERCTL :=
  { c.set t (c.timer t).default with nextAlarmOnTick := skippedAlarm c t }

/-- **`timer_free`** puts the timer at the end of the queue. -/
theorem TimerInv.free (h : TimerInv c q) (hf : (c.timer t).flags ≠ .guardnode) :
    TimerInv (timerFree c (some t)).1 (q.erase t ++ [t]) ∧
      SameData (freedTimer c t) (timerFree c (some t)).1 := by
  have htail := h.ne_tail hf
  have hnd := (nodup_cons.mp h.linked.nodup).2
  have hoff : t ∉ timerTail :: q.erase t :=
    not_mem_cons_of_ne_of_not_mem htail hnd.not_mem_erase
  have hskip : (if (c.timer t).flags = .oncountdown then timerSkipAlarm c t else c) =
      { c with nextAlarmOnTick := skippedAlarm c t } := by
    split
    next ht => exact timerSkipAlarm_eq ht
    next ht => rw [skippedAlarm_of_ne ht]
  have h₁ : TimerInv { c with nextAlarmOnTick := skippedAlarm c t } q := h.congr rfl rfl
  simp only [timerFree, if_neg hf, hskip]
  have hl₂ := h₁.linked.remove htail
  have hs₂ := dlistRemove_sameData { c with nextAlarmOnTick := skippedAlarm c t } t
  have hm₂ := h₁.marked.sameData hs₂
  generalize dlistRemove timerLinks { c with nextAlarmOnTick := skippedAlarm c t } t = c₂ at *
  have hs₃ := timerSetDefaultParams_sameData c₂ t
  have hl₄ := (hl₂.setDefaultParams hoff).insertBefore_guard hoff
  have hm₃ := hm₂.set_last (v := (c₂.timer t).default) htail rfl rfl hnd
  have hdata : SameData (freedTimer c t) (c₂.set t (c₂.timer t).default) := by
    refine ⟨hs₂.tick, hs₂.listtail, hs₂.alarm, fun x => ?_⟩
    by_cases hx : x = t
    · simp [hx, freedTimer, TIMER.default, TIMER.fields]
    · simpa [hx, freedTimer] using hs₂.fields x
  have htl : (timerSetDefaultParams c₂ t).listtail = timerTail := hs₃.listtail.trans hm₃.tail
  rw [htl]
  have hs₄ := dlistInsertBefore_sameData (timerSetDefaultParams c₂ t) timerTail t
  exact ⟨⟨hl₄, hm₃.sameData (hs₃.trans hs₄)⟩, hdata.trans (hs₃.trans hs₄)⟩

theorem timerFree_guard (hf : (c.timer t).flags = .guardnode) :
    timerFree c (some t) = (c, none) := by
  simp only [timerFree, if_pos hf]

/-! ## `timer_int_handler` -/

/-- The fields after the timers of `l` have fired. -/
def fired (c : TIMERCTL) (l : List TimerId) : TIMERCTL :=
  { c with timer := fun x => if x ∈ l then { c.timer x with flags := .allocated } else c.timer x }

section Fired

variable (c : TIMERCTL) (l : List TimerId) (x : TimerId)

/-- Only the flags change. -/
theorem fired_fields : ((fired c l).timer x).fields =
    { c.timer x with flags := if x ∈ l then .allocated else (c.timer x).flags }.fields := by
  simp only [fired]
  split <;> rfl

@[simp] theorem fired_target : ((fired c l).timer x).targetTick = (c.timer x).targetTick :=
  congrArg Prod.fst (fired_fields c l x)

@[simp] theorem fired_fifo : ((fired c l).timer x).fifo = (c.timer x).fifo :=
  congrArg (fun v => v.2.2.1) (fired_fields c l x)

@[simp] theorem fired_data : ((fired c l).timer x).data = (c.timer x).data :=
  congrArg (fun v => v.2.2.2) (fired_fields c l x)

@[simp] theorem fired_flags :
    ((fired c l).timer x).flags = if x ∈ l then .allocated else (c.timer x).flags :=
  congrArg (fun v => v.2.1) (fired_fields c l x)

theorem fired_nil : SameData (fired c []) c :=
  ⟨rfl, rfl, rfl, fun x => by simp [TIMER.fields]⟩

end Fired

/-- The call of `mpfifo32_enqueue` for a timer. -/
def firing (c : TIMERCTL) (t : TimerId) : Firing :=
  ⟨t, (c.timer t).fifo, (c.timer t).data, c.tick⟩

/-- The timer is due. -/
def isDue (c : TIMERCTL) (t : TimerId) : Bool := decide ((c.timer t).targetTick ≤ c.tick)

/-- The first timer of the queue fires: it is allocated again and off the queue. -/
theorem TimerInv.fire (h : TimerInv c (t :: q)) :
    TimerInv (dlistRemove timerLinks (c.set t { c.timer t with flags := .allocated }) t) q ∧
      SameData (c.set t { c.timer t with flags := .allocated })
        (dlistRemove timerLinks (c.set t { c.timer t with flags := .allocated }) t) := by
  have hnd := h.linked.nodup
  have htail : t ≠ timerTail := by
    rintro rfl
    simp at hnd
  have hs := dlistRemove_sameData (c.set t { c.timer t with flags := .allocated }) t
  have hl : Linked (c.set t { c.timer t with flags := .allocated }) timerTail (t :: q) :=
    h.linked.congr fun x => by by_cases hx : x = t <;> simp [hx]
  have hl' := hl.remove htail
  have hm := h.marked.set_erase (t := t) (v := { c.timer t with flags := .allocated })
    (nodup_cons.mp hnd).2 htail (by simp) (by simp) (h.marked.target_le t)
  rw [erase_cons_head] at hl' hm
  exact ⟨⟨hl', hm.sameData hs⟩, hs⟩

/-- The node after the guard is the first of the queue. -/
theorem TimerInv.next_tail (h : TimerInv c q) :
    timerLinks.next c timerTail = q.headD timerTail := by
  cases q with
  | nil => exact (ring_nil.mp h.linked.ring).1
  | cons x q => exact h.linked.ring.next_head

/-- **The loop of the handler** fires the timers at the front of the queue that
are due, in order, and leaves the rest. -/
theorem TimerInv.loop (tss : Option TimerId) {fuel : Nat} (h : TimerInv c q)
    (hfuel : q.length < fuel) :
    ∃ c', timerIntLoop tss fuel c (q.headD timerTail) =
        some (c', (q.takeWhile (isDue c)).map (firing c),
          (q.takeWhile (isDue c)).any fun t => decide (tss = some t)) ∧
      TimerInv c' (q.dropWhile (isDue c)) ∧ SameData (fired c (q.takeWhile (isDue c))) c' := by
  -- on the ring: a due head is taken off, and the loop goes on from the new head
  induction q generalizing c fuel with
  | nil =>
    obtain ⟨fuel, rfl⟩ := Nat.exists_eq_succ_of_ne_zero (Nat.ne_of_gt hfuel)
    refine ⟨c, ?_, h, ?_⟩
    · simp [timerIntLoop, h.marked.tail]
    · exact fired_nil c
  | cons t q ih =>
    obtain ⟨fuel, rfl⟩ := Nat.exists_eq_succ_of_ne_zero (Nat.ne_of_gt (Nat.zero_lt_of_lt hfuel))
    have hnd := h.linked.nodup
    have htail : t ≠ c.listtail := by
      rw [h.marked.tail]
      rintro rfl
      simp at hnd
    rw [headD_cons, timerIntLoop, if_neg htail]
    by_cases hdue : (c.timer t).targetTick ≤ c.tick
    · have hring : timerLinks.Ring c timerTail ([] ++ t :: q) := h.linked.ring
      have hprev : timerLinks.prev c t = timerTail := hring.prev_mem
      obtain ⟨h₁, hs₁⟩ := h.fire
      have hdue₁ : isDue c t = true := decide_eq_true hdue
      rw [if_neg (Nat.not_lt.mpr hdue), hprev]
      simp only [takeWhile_cons, dropWhile_cons, hdue₁, if_true]
      generalize dlistRemove timerLinks (c.set t { c.timer t with flags := .allocated }) t = c₁
        at h₁ hs₁ ⊢
      have hone : SameData (fired c [t]) c₁ := by
        refine ⟨hs₁.tick, hs₁.listtail, hs₁.alarm, fun x => (hs₁.fields x).trans ?_⟩
        by_cases hx : x = t <;> simp [fired, hx]
      -- what the rest is compared with has not changed
      have hisDue : isDue c₁ = isDue c := funext fun x => by
        rw [isDue, hone.target, fired_target, hone.tick]
        rfl
      have hfiring : firing c₁ = firing c := funext fun x => by
        rw [firing, hone.fifo, hone.data, fired_fifo, fired_data, hone.tick]
        rfl
      obtain ⟨c', hloop, hinv, hs⟩ := ih h₁ (Nat.lt_of_succ_lt_succ hfuel)
      rw [hisDue] at hloop hinv hs
      rw [h₁.next_tail, hloop, hfiring]
      refine ⟨c', rfl, hinv, SameData.trans ?_ hs⟩
      refine ⟨hs₁.tick, hs₁.listtail, hs₁.alarm, fun x => ?_⟩
      rw [fired_fields, fired_fields]
      by_cases hxt : x = t <;>
        simp [TIMER.fields, hxt, hone.target, hone.flags, hone.fifo, hone.data]
    · have hdue₁ : isDue c t = false := decide_eq_false hdue
      rw [if_pos (Nat.lt_of_not_le hdue)]
      simp only [takeWhile_cons, dropWhile_cons, hdue₁, Bool.false_eq_true, if_false]
      exact ⟨c, rfl, h, fired_nil c⟩

/-- The state in which the handler's loop runs. -/
def ticked (c : TIMERCTL) : TIMERCTL := { c with tick := u32 (c.tick + 1) }

/-- **`timer_int_handler`** does nothing before the next alarm. From then on it
fires the timers that are due, and the first timer left sets the next alarm. -/
theorem TimerInv.handler (tss : Option TimerId) (h : TimerInv c q) :
    (u32 (c.tick + 1) < c.nextAlarmOnTick ∧
      timerIntHandler tss c = some (ticked c, [], false)) ∨
    (c.nextAlarmOnTick ≤ u32 (c.tick + 1) ∧ ∃ c', timerIntHandler tss c =
        some (c', (q.takeWhile (isDue (ticked c))).map (firing (ticked c)),
          (q.takeWhile (isDue (ticked c))).any fun t => decide (tss = some t)) ∧
      TimerInv c' (q.dropWhile (isDue (ticked c))) ∧
      SameData { fired (ticked c) (q.takeWhile (isDue (ticked c))) with nextAlarmOnTick :=
        (c.timer ((q.dropWhile (isDue (ticked c))).headD timerTail)).targetTick } c') := by
  have h₁ : TimerInv (ticked c) q := h.congr rfl rfl
  have heq : timerIntHandler tss c =
      if (ticked c).nextAlarmOnTick > (ticked c).tick then some (ticked c, [], false)
      else (timerIntLoop tss osMaxTimer (ticked c) (timerLinks.next (ticked c)
        (ticked c).listtail)).map fun r =>
          ({ r.1 with
            nextAlarmOnTick := (r.1.timer (timerLinks.next r.1 r.1.listtail)).targetTick },
            r.2.1, r.2.2) := rfl
  rw [heq]
  split
  next hlt => exact .inl ⟨hlt, rfl⟩
  next hge =>
    refine .inr ⟨Nat.le_of_not_lt hge, ?_⟩
    obtain ⟨c', hloop, hinv, hs⟩ := h₁.loop tss h₁.linked.length_lt
    rw [h₁.marked.tail, h₁.next_tail, hloop, Option.map_some]
    refine ⟨_, rfl, hinv.congr rfl rfl, ?_⟩
    have hfirst : (c'.timer (timerLinks.next c' c'.listtail)).targetTick =
        (c.timer ((q.dropWhile (isDue (ticked c))).headD timerTail)).targetTick := by
      rw [hinv.marked.tail, hinv.next_tail, hs.target, fired_target]
      rfl
    exact ⟨hs.tick, hs.listtail, hfirst, hs.fields⟩

/-! ## `timerctl_init` -/

/-- The first `i` timers. -/
def firstTimers (i : Nat) : List TimerId := (List.range i).map (Fin.ofNat osMaxTimer)

theorem firstTimers_succ (i : Nat) :
    firstTimers (i + 1) = firstTimers i ++ [Fin.ofNat osMaxTimer i] := by
  simp [firstTimers, range_succ]

theorem mem_firstTimers {i : Nat} (hi : i < osMaxTimer) {x : TimerId} :
    x ∈ firstTimers i ↔ x.val < i := by
  simp only [firstTimers, mem_map, mem_range]
  constructor
  · rintro ⟨j, hj, rfl⟩
    rw [Fin.val_ofNat, Nat.mod_eq_of_lt (by omega)]
    exact hj
  · intro hx
    exact ⟨x.val, hx, Fin.ext (by rw [Fin.val_ofNat, Nat.mod_eq_of_lt x.isLt])⟩

theorem nodup_firstTimers {i : Nat} (hi : i < osMaxTimer) :
    (timerTail :: firstTimers i).Nodup := by
  refine nodup_cons.mpr ⟨fun hm => ?_, Nodup.map_on ?_ nodup_range⟩
  · have hlt : osMaxTimer - 1 < i := (mem_firstTimers hi).mp hm
    omega
  · intro a ha b hb he
    have hval := congrArg Fin.val he
    rw [mem_range] at ha hb
    rwa [Fin.val_ofNat, Fin.val_ofNat, Nat.mod_eq_of_lt (by omega), Nat.mod_eq_of_lt (by omega)]
      at hval

/-- The fields of a timer after `__timer_set_default_params`, up to the flags. -/
structure Default (v : TIMER) (flags : TimerFlags) : Prop where
  target : v.targetTick = uint32Max
  flags : v.flags = flags
  fifo : v.fifo = none
  data : v.data = 0

/-- The state after `i` rounds of the loop of `timerctl_init`. -/
structure InitInv (c : TIMERCTL) (i : Nat) : Prop where
  tail : c.listtail = timerTail
  tick : c.tick = 0
  alarm : c.nextAlarmOnTick = uint32Max
  ring : timerLinks.Ring c timerTail (firstTimers i)
  free : ∀ x : TimerId, x.val < i → Default (c.timer x) .free
  guard : Default (c.timer timerTail) .guardnode

theorem SameData.default {c c' : TIMERCTL} (h : SameData c c') {x : TimerId} {f : TimerFlags}
    (hd : Default (c.timer x) f) : Default (c'.timer x) f :=
  ⟨(h.target x).trans hd.target, (h.flags x).trans hd.flags, (h.fifo x).trans hd.fifo,
    (h.data x).trans hd.data⟩

/-- The node that a round of the loop inserts after is the last of the ring. -/
theorem firstTimers_last {i : Nat} {x : TimerId} {c : TIMERCTL}
    (hr : timerLinks.Ring c timerTail (firstTimers i)) (hx : timerLinks.Ring c x [])
    (hnd : (timerTail :: firstTimers i ++ [x]).Nodup) :
    timerLinks.Ring (dlistInsertAfter timerLinks c
      (if i = 0 then timerTail else Fin.ofNat osMaxTimer (i - 1)) x) timerTail
      (firstTimers i ++ [x]) := by
  cases i with
  | zero =>
    rw [if_pos rfl]
    exact dlistInsertAfter_ring timerLinks_lawful hr hx hnd fun _ _ => trivial
  | succ i =>
    rw [if_neg (Nat.succ_ne_zero i), Nat.succ_sub_one]
    rw [firstTimers_succ] at hr hnd ⊢
    have hins := dlistInsertAfter_member timerLinks_lawful hr hx hnd fun _ _ => trivial
    simpa using hins

/-- A round links its timer in behind the one of the round before. -/
theorem InitInv.step {c : TIMERCTL} {i : Nat} (h : InitInv c i) (hi : i + 1 < osMaxTimer) :
    InitInv (dlistInsertAfter timerLinks (timerSetDefaultParams c (Fin.ofNat osMaxTimer i))
      (if i = 0 then timerTail else Fin.ofNat osMaxTimer (i - 1)) (Fin.ofNat osMaxTimer i))
      (i + 1) := by
  have hval : (Fin.ofNat osMaxTimer i).val = i := by
    rw [Fin.val_ofNat, Nat.mod_eq_of_lt (by omega)]
  have hmem := fun x : TimerId => mem_firstTimers (i := i) (by omega) (x := x)
  have htt : timerTail.val = osMaxTimer - 1 := rfl
  generalize ht : Fin.ofNat osMaxTimer i = t at *
  have htail : t ≠ timerTail := fun he => by rw [he] at hval; omega
  have hs := (timerSetDefaultParams_sameData c t).trans (dlistInsertAfter_sameData
    (timerSetDefaultParams c t) (if i = 0 then timerTail else Fin.ofNat osMaxTimer (i - 1)) t)
  have hoff : ∀ y ∈ timerTail :: firstTimers i, y ≠ t := by
    intro y hy he
    rcases mem_cons.mp hy with rfl | hy
    · exact htail he.symm
    · have := (hmem y).mp hy
      rw [he] at this
      omega
  refine ⟨hs.listtail.trans h.tail, hs.tick.trans h.tick, hs.alarm.trans h.alarm, ?_, ?_, ?_⟩
  · have hlinks : ∀ y, y ≠ t → timerLinks.SameAt c (timerSetDefaultParams c t) y := by
      intro y hy
      rw [SameAt, timerSetDefaultParams, dlistInit_next timerLinks_lawful trivial trivial,
        if_neg hy,
        dlistInit_prev timerLinks_lawful trivial trivial, if_neg hy]
      simp [timerLinks, hy]
    have hself : timerLinks.Ring (timerSetDefaultParams c t) t [] := by
      refine ring_nil.mpr ?_
      rw [timerSetDefaultParams, dlistInit_next timerLinks_lawful trivial trivial, if_pos rfl,
        dlistInit_prev timerLinks_lawful trivial trivial, if_pos rfl]
      exact ⟨rfl, rfl⟩
    have hring : timerLinks.Ring (timerSetDefaultParams c t) timerTail (firstTimers i) :=
      h.ring.congr fun y hy => hlinks y (hoff y hy)
    have hnd := nodup_firstTimers hi
    rw [firstTimers_succ, ht] at hnd ⊢
    exact firstTimers_last hring hself hnd
  · intro x hx
    refine hs.default ?_
    by_cases hxt : x = t
    · simp only [hxt, TIMERCTL.set_timer, if_true]
      exact ⟨rfl, rfl, rfl, rfl⟩
    · simp only [TIMERCTL.set_timer, hxt, if_false]
      refine h.free x ?_
      have : x.val ≠ i := fun he => hxt (Fin.ext (he.trans hval.symm))
      omega
  · refine hs.default ?_
    simp only [TIMERCTL.set_timer, Ne.symm htail, if_false]
    exact h.guard

/-- The loop of `timerctl_init` initializes the timers one after the other. -/
theorem InitInv.loop {c : TIMERCTL} (h : InitInv c 0) :
    ∀ i, i < osMaxTimer → InitInv (timerctlInitLoop c i) i
  | 0, _ => h
  | i + 1, hi => InitInv.step (InitInv.loop h i (by omega)) hi

/-- `timerctl_init` gets through all timers but the guard. -/
theorem timerctlInit_initInv (c : TIMERCTL) : InitInv (timerctlInit c) (osMaxTimer - 1) := by
  refine InitInv.loop ?_ _ (by decide)
  refine ⟨rfl, rfl, rfl, ring_nil.mpr ⟨?_, ?_⟩, fun x hx => absurd hx (Nat.not_lt_zero _), ?_⟩
  · simp [timerLinks, timerSetDefaultParams, dlistInit]
  · simp [timerLinks, timerSetDefaultParams, dlistInit]
  · constructor <;> simp [timerLinks, timerSetDefaultParams, dlistInit]

/-- Once all timers are initialized, they form a queue. -/
theorem InitInv.timerInv {c : TIMERCTL} {n : Nat} (h : InitInv c n) (hn : n + 1 = osMaxTimer) :
    TimerInv c (firstTimers n) := by
  have hmem := fun x : TimerId => mem_firstTimers (i := n) (by omega) (x := x)
  have hall : ∀ x : TimerId, x ≠ timerTail → x.val < n := by
    intro x hx
    have h1 := x.isLt
    have h2 : x.val ≠ osMaxTimer - 1 := fun he => hx (Fin.ext he)
    omega
  have htarget : ∀ x, (c.timer x).targetTick = uint32Max := by
    intro x
    by_cases hx : x = timerTail
    · rw [hx, h.guard.target]
    · exact (h.free x (hall x hx)).target
  refine ⟨⟨h.ring, nodup_firstTimers (by omega), fun x hx => ?_⟩,
    ⟨h.tail, fun x => ?_, htarget _, ?_, fun x hx => ?_, fun x hx => ?_, fun x _ => htarget x,
      fun x => ?_⟩⟩
  · rw [mem_cons, not_or, hmem] at hx
    exact absurd (hall x hx.1) hx.2
  · constructor
    · intro hg
      by_contra hx
      rw [(h.free x (hall x hx)).flags] at hg
      cases hg
    · rintro rfl
      exact h.guard.flags
  · refine pairwise_of_forall fun x y => ?_
    rw [dueBefore, htarget, htarget]
  · rw [hmem]
    refine hall x ?_
    rintro rfl
    rw [h.guard.flags] at hx
    cases hx
  · rw [(h.free x ((hmem x).mp hx)).flags]
    decide
  · rw [htarget]

/-- **`timerctl_init`** leaves all timers but the guard free and queued. -/
theorem timerctlInit_inv (c : TIMERCTL) :
    TimerInv (timerctlInit c) (firstTimers (osMaxTimer - 1)) :=
  (timerctlInit_initInv c).timerInv rfl

/-- The state that `timerctl_init` sets up, in closed form. -/
def initTimerctl : TIMERCTL where
  tick := 0
  listtail := timerTail
  nextAlarmOnTick := uint32Max
  timer x := ⟨⟨x + 1, x - 1⟩, uint32Max, if x = timerTail then .guardnode else .free, none, 0⟩

/-- The links of a ring of all timers. -/
theorem firstTimers_links {c : TIMERCTL} {n : Nat} (hn : n + 1 = osMaxTimer)
    (hr : timerLinks.Ring c timerTail (firstTimers n)) (x : TimerId) :
    (c.timer x).timerDL = ⟨x + 1, x - 1⟩ := by
  have hlen : (timerTail :: firstTimers n ++ [timerTail]).length = n + 2 := by
    simp [firstTimers]
  have h500 : osMaxTimer = 500 := rfl
  have hmod : ∀ a : Nat, a % osMaxTimer = a % 500 := fun _ => rfl
  -- position `j` of the circle holds the timer before `j`
  have hget : ∀ j (hj : j < (timerTail :: firstTimers n ++ [timerTail]).length),
      (timerTail :: firstTimers n ++ [timerTail])[j] = Fin.ofNat osMaxTimer (j + n) := by
    have htail : timerTail.val = n := by
      show osMaxTimer - 1 = n
      omega
    intro j hj
    refine Fin.ext ?_
    rw [Fin.val_ofNat]
    cases j with
    | zero =>
      rw [Nat.mod_eq_of_lt (by omega), Nat.zero_add]
      exact htail
    | succ i =>
      simp only [cons_append, getElem_cons_succ]
      by_cases hi : i < n
      · rw [getElem_append_left (by simpa [firstTimers] using hi)]
        simp only [firstTimers, getElem_map, getElem_range, Fin.val_ofNat, hmod]
        omega
      · rw [getElem_append_right (by simpa [firstTimers] using Nat.le_of_not_lt hi)]
        simp only [getElem_singleton, htail, hmod]
        omega
  have hx := x.isLt
  have hnext := (Path.getElem hr ((x.val + 1) % osMaxTimer) (by rw [hmod]; omega)).1
  have hprev := (Path.getElem hr x.val (by omega)).2
  rw [hget, hget] at hnext hprev
  have hself : Fin.ofNat osMaxTimer ((x.val + 1) % osMaxTimer + n) = x :=
    Fin.ext (by rw [Fin.val_ofNat]; simp only [hmod]; omega)
  have hself' : Fin.ofNat osMaxTimer (x.val + 1 + n) = x :=
    Fin.ext (by rw [Fin.val_ofNat]; simp only [hmod]; omega)
  rw [hself] at hnext
  rw [hself'] at hprev
  have hsucc : Fin.ofNat osMaxTimer ((x.val + 1) % osMaxTimer + 1 + n) = x + 1 :=
    Fin.ext (by
      have h1 : (1 : TimerId).val = 1 := rfl
      rw [Fin.val_ofNat, Fin.val_add, h1]
      simp only [hmod]
      omega)
  have hpred : Fin.ofNat osMaxTimer (x.val + n) = x - 1 :=
    Fin.ext (by
      have h1 : (1 : TimerId).val = 1 := rfl
      rw [Fin.val_ofNat, Fin.val_sub, h1]
      simp only [hmod]
      omega)
  rw [hsucc] at hnext
  rw [hpred] at hprev
  calc (c.timer x).timerDL = ⟨timerLinks.next c x, timerLinks.prev c x⟩ := rfl
    _ = ⟨x + 1, x - 1⟩ := by rw [hnext, hprev]

/-- A state that `InitInv` describes to the end is the closed form. -/
theorem InitInv.eq_init {c : TIMERCTL} {n : Nat} (h : InitInv c n) (hn : n + 1 = osMaxTimer) :
    c = initTimerctl := by
  have htimer : c.timer = initTimerctl.timer := by
    funext x
    have hlinks := firstTimers_links hn h.ring x
    have hd : Default (c.timer x) (if x = timerTail then .guardnode else .free) := by
      split
      next hx => exact hx ▸ h.guard
      next hx =>
        refine h.free x ?_
        have h1 := x.isLt
        have h2 : x.val ≠ osMaxTimer - 1 := fun he => hx (Fin.ext he)
        omega
    obtain ⟨h1, h2, h3, h4⟩ := hd
    show c.timer x = ⟨_, _, _, _, _⟩
    rw [← hlinks, ← h1, ← h2, ← h3, ← h4]
  have htail := h.tail
  have htick := h.tick
  have halarm := h.alarm
  cases c
  simp only at htail htick halarm htimer
  rw [htail, htick, halarm, htimer]
  rfl

theorem timerctlInit_eq (c : TIMERCTL) : timerctlInit c = initTimerctl :=
  (timerctlInit_initInv c).eq_init rfl

end UnagiOs
