import UnagiOs.Kernel.SchedRun

/-!
# The executing task is the current one

The scheduler does not store which task executes. `mprocess_task_get_current`
derives it from `now_lv` and `now`, which change with the next switch only, while
the arrays they point into change at once. So long as the slot they point at is
left alone it names the executing task, even in a level that has been emptied,
where the last entry stays behind (`Executing`).

Two calls of `mprocess_task_run` disturb the slot: moving the executing task out of
a level in which others run, and waking a task into the emptied level.
`executing_is_current`: along every history without these, and in which `now` stays
in range, the current task is the executing one, and its sleep switches away
from it. `current_differs_after_move` shows the first of the two calls: the sleep
of the executing task then returns to it.
-/

namespace UnagiOs

/-- The call leaves the slot of the executing task alone: that task leaves the current level only
when no other runs there, an empty current level is joined by no other task, a level that is
joined when empty has its `now` at 0, and the executing task goes to sleep only when another
runs. -/
def TaskOp.Steady (s : Cpu) : TaskOp → Prop
  | .run (some t) level _ => Joins s.ctl t level →
      (s.tr = some t → (s.ctl.tasks0 t).level = s.ctl.nowLv →
        (s.ctl.level s.ctl.nowLv).running = 1) ∧
      ((s.ctl.level (askedLevel s.ctl t level)).running = 0 →
        (s.ctl.level (askedLevel s.ctl t level)).now = 0 ∧
        (askedLevel s.ctl t level = s.ctl.nowLv → s.tr = some t))
  | .sleep (some t) => s.tr = some t → (s.ctl.tasks0 t).flags = .running →
      ∃ x, x ≠ t ∧ (s.ctl.tasks0 x).flags = .running
  | _ => True

instance (s : Cpu) : ∀ op : TaskOp, Decidable (op.Steady s)
  | .run (some _) _ _ => inferInstanceAs (Decidable (_ → _ ∧ _))
  | .sleep (some _) => inferInstanceAs (Decidable (_ → _ → _))
  | .run none _ _ | .sleep none | .alloc | .autoswitch => isTrue trivial

/-- The sleep of the executing task switches to another task, which runs. -/
def SleepsAway (s : Cpu) (op : TaskOp) (s' : Cpu) : Prop :=
  match op with
  | .sleep (some t) => s.tr = some t → (s.ctl.tasks0 t).flags = .running →
      ∃ x, x ≠ t ∧ s'.tr = some x ∧ (s'.ctl.tasks0 x).flags = .running
  | _ => True

/-- The current slot names the task. -/
structure Current (c : TASKCTL) (t : TaskId) : Prop where
  slot : mprocessTaskGetCurrent c = some t
  emptied : (c.level c.nowLv).running = 0 → (c.level c.nowLv).now = 0

/-- The task executes, runs and is the current one. -/
structure Executing (s : Cpu) (t : TaskId) : Prop where
  inv : NowInv s.ctl
  tr : s.tr = some t
  running : (s.ctl.tasks0 t).flags = .running
  current : Current s.ctl t

/-! ## The current slot of a level -/

section Slot

variable {tl : TASKLEVEL} {t x : TaskId}

/-- The current slot follows its task when another one leaves. -/
theorem TASKLEVEL.without_current (hx : some x ∈ tl.entries)
    (hnow : tl.now < tl.running) (ht : tl.tasks tl.now = some t) (hxt : x ≠ t) :
    (tl.without x).tasks (tl.without x).now = some t ∧
      (tl.without x).now < (tl.without x).running := by
  have hidx : tl.entries.idxOf (some x) < tl.running := by
    have hlt := List.idxOf_lt_length_of_mem hx
    rwa [TASKLEVEL.entries, length_slots] at hlt
  have hslot : tl.tasks (tl.entries.idxOf (some x)) = some x :=
    (getElem_slots (List.idxOf_lt_length_of_mem hx)).symm.trans
      (List.getElem_idxOf (List.idxOf_lt_length_of_mem hx))
  have hne : tl.entries.idxOf (some x) ≠ tl.now := by
    intro heq
    rw [heq, ht] at hslot
    exact hxt (Option.some.inj hslot).symm
  simp only [TASKLEVEL.without, shiftDown_apply]
  generalize tl.entries.idxOf (some x) = i at hidx hne
  by_cases hlt : i < tl.now
  · have hback : ¬ tl.now - 1 ≥ tl.running - 1 := by omega
    have hsub : tl.now - 1 + 1 = tl.now := by omega
    rw [if_pos hlt, if_neg hback, if_pos (by omega), hsub]
    exact ⟨ht, Nat.lt_of_not_le hback⟩
  · have hback : ¬ tl.now ≥ tl.running - 1 := by omega
    rw [if_neg hlt, if_neg hback, if_neg (by omega)]
    exact ⟨ht, Nat.lt_of_not_le hback⟩

/-- The last task to leave stays behind in slot 0. -/
theorem TASKLEVEL.without_last (hone : tl.running = 1) (hnow : tl.now < tl.running)
    (ht : tl.tasks tl.now = some t) :
    (tl.without t).tasks (tl.without t).now = some t ∧ (tl.without t).running = 0 ∧
      (tl.without t).now = 0 := by
  have hnow0 : tl.now = 0 := by omega
  have hidx : tl.entries.idxOf (some t) = 0 := by
    simp [TASKLEVEL.entries, slots, hone, hnow0 ▸ ht]
  simp only [TASKLEVEL.without, hone, hidx, hnow0]
  exact ⟨by simpa [shiftDown, hnow0] using ht, by simp, by simp⟩

/-- A task that joins does not touch a current slot in use. -/
theorem TASKLEVEL.push_current (hnow : tl.now < tl.running) :
    (tl.push t).tasks (tl.push t).now = tl.tasks tl.now :=
  if_neg (Nat.ne_of_lt hnow)

end Slot

section Current

variable {c : TASKCTL} {t x : TaskId} {v : TASK}

theorem Current.congr {c' : TASKCTL} (h : Current c t) (hlv : c'.nowLv = c.nowLv)
    (hl : c'.level c.nowLv = c.level c.nowLv) : Current c' t := by
  refine ⟨?_, ?_⟩
  · rw [mprocessTaskGetCurrent, hlv, hl]
    exact h.slot
  · rw [hlv, hl]
    exact h.emptied

/-- Another task leaves its level. -/
theorem Current.remove_other (h : Current c t) (hs : Sched c) (hnow : NowInRange c)
    (hx : (c.tasks0 x).flags = .running) (hxt : x ≠ t) : Current (mprocessTaskRemove c x) t := by
  by_cases hlev : c.nowLv = (c.tasks0 x).level
  · have hpos : 0 < (c.level c.nowLv).running := hlev ▸ hs.running_pos hx
    have hmem : some x ∈ (c.level c.nowLv).entries := hlev ▸ hs.mem_level hx
    obtain ⟨hslot, hlt⟩ := TASKLEVEL.without_current hmem (hnow _ hpos) h.slot hxt
    refine ⟨?_, fun hempty => ?_⟩
    · rw [mprocessTaskGetCurrent, remove_nowLv, remove_level, if_pos hlev]
      exact hslot
    · rw [remove_nowLv, remove_level, if_pos hlev] at hempty
      omega
  · exact h.congr (remove_nowLv c x) (by rw [remove_level, if_neg hlev])

/-- The task itself leaves a level in which it is alone, or one that is not the
current one. -/
theorem Current.remove_self (h : Current c t) (hnow : NowInRange c)
    (halone : (c.tasks0 t).level = c.nowLv → (c.level c.nowLv).running = 1) :
    Current (mprocessTaskRemove c t) t := by
  by_cases hlev : c.nowLv = (c.tasks0 t).level
  · have hone := halone hlev.symm
    obtain ⟨hslot, -, hzero⟩ :=
      TASKLEVEL.without_last hone (hnow _ (by omega)) h.slot
    refine ⟨?_, fun _ => ?_⟩
    · rw [mprocessTaskGetCurrent, remove_nowLv, remove_level, if_pos hlev]
      exact hslot
    · rw [remove_nowLv, remove_level, if_pos hlev]
      exact hzero
  · exact h.congr (remove_nowLv c t) (by rw [remove_level, if_neg hlev])

/-- A task joins a level. If that is the current level and empty, the task is the
current one. -/
theorem Current.join (h : Current c t) (hnow : NowInRange c)
    (hx : v.level = c.nowLv → (c.level c.nowLv).running = 0 → x = t) :
    Current (joined (c.setTask x v) x) t := by
  by_cases hlev : c.nowLv = v.level
  · have hlevel : (joined (c.setTask x v) x).level (joined (c.setTask x v) x).nowLv =
        (c.level c.nowLv).push x := by
      rw [joined_nowLv, setTask_nowLv, joined_level, if_pos hlev]
    refine ⟨?_, fun hempty => ?_⟩
    · rw [mprocessTaskGetCurrent, hlevel]
      by_cases hempty : (c.level c.nowLv).running = 0
      · rw [← hx hlev.symm hempty]
        simp [TASKLEVEL.push, setSlot, hempty, h.emptied hempty]
      · rw [TASKLEVEL.push_current (hnow _ (Nat.pos_of_ne_zero hempty))]
        exact h.slot
    · rw [hlevel] at hempty
      exact absurd hempty (Nat.succ_ne_zero _)
  · exact h.congr rfl (by rw [joined_level, if_neg hlev])

/-- In a level that is not empty. -/
theorem Current.of_pos (hslot : mprocessTaskGetCurrent c = some t)
    (hpos : 0 < (c.level c.nowLv).running) : Current c t :=
  ⟨hslot, fun hempty => absurd hempty (Nat.ne_of_gt hpos)⟩

end Current

/-! ## Histories -/

section Executing

variable {s s' : Cpu} {op : TaskOp} {t : TaskId}

/-- A steady call of the executing system is safe. -/
theorem Executing.safe (h : Executing s t) (hop : op.Steady s) : op.Safe s.ctl := by
  match op, hop with
  | .alloc, _ | .run none _ _, _ | .sleep none, _ => exact trivial
  | .run (some x) level _, hop => exact fun hjoin hempty => ((hop hjoin).2 hempty).1
  | .sleep (some x), hop =>
    intro hx hcur
    have hxt : x = t := Option.some.inj (hcur.symm.trans h.current.slot)
    exact hop (hxt ▸ h.tr) hx
  | .autoswitch, _ => exact ⟨t, h.running⟩

/-- The executing task is none that does not run. -/
theorem Executing.ne {x : TaskId} (h : Executing s t) (hx : (s.ctl.tasks0 x).flags ≠ .running) :
    t ≠ x :=
  fun heq => hx (heq ▸ h.running)

/-- After a switch the current task executes. -/
theorem Executing.of_switch (hinv : NowInv s.ctl) (htr : s.tr = mprocessTaskGetCurrent s.ctl)
    (hmem : mprocessTaskGetCurrent s.ctl ∈ (s.ctl.level s.ctl.nowLv).entries) :
    ∃ t, Executing s t := by
  obtain ⟨t, ht, hrun, -⟩ := hinv.sched.exists_of_mem hmem
  have hpos := List.length_pos_of_mem hmem
  rw [TASKLEVEL.entries, length_slots] at hpos
  exact ⟨t, hinv, htr.trans ht, hrun, Current.of_pos ht hpos⟩

/-- **A steady call** leaves some task executing that runs and is the current one. -/
theorem Executing.step (h : Executing s t) (hs : TaskStep s op s') (hs' : Sched s'.ctl)
    (hop : op.Steady s) : ∃ t', Executing s' t' := by
  obtain ⟨hinv, hswitch⟩ := h.inv.step hs hs' (h.safe hop)
  have hnow := h.inv.now
  cases hs with
  | idle _ => exact ⟨t, h⟩
  | @alloc x hx =>
    have hxt : t ≠ x := h.ne (by simp [hx])
    exact ⟨t, hinv, h.tr, by simpa [hxt] using h.running, h.current.congr rfl rfl⟩
  | @touch x level priority _ =>
    refine ⟨t, hinv, h.tr, ?_, h.current.congr rfl rfl⟩
    show ((s.ctl.setTask x (askedPriority s.ctl x priority)).tasks0 t).flags = .running
    rw [setTask_tasks0]
    split
    next hx => exact hx ▸ h.running
    next => exact h.running
  | @wake x level priority hx =>
    have hxt : t ≠ x := h.ne (by simp [hx])
    refine ⟨t, hinv, h.tr, ?_, ?_⟩
    · show ((joined _ x).tasks0 t).flags = .running
      rw [joined_tasks0, if_neg hxt]
      exact h.running
    · refine (h.current.join hnow fun hlev hempty => ?_).congr rfl rfl
      have htr := ((hop (.inl hx)).2 (by rwa [← hlev] at hempty)).2 hlev
      exact Option.some.inj (htr.symm.trans h.tr)
  | @move x level priority hx hlev =>
    obtain ⟨halone, hempty⟩ := hop (.inr ⟨hx, hlev⟩)
    -- a task that moves itself was alone on its level
    have hremoved : Current (mprocessTaskRemove s.ctl x) t := by
      by_cases hxt : x = t
      · exact hxt ▸ h.current.remove_self hnow (hxt ▸ halone (hxt ▸ h.tr))
      · exact h.current.remove_other h.inv.sched hnow hx hxt
    refine ⟨t, hinv, h.tr, ?_, ?_⟩
    · show ((joined _ x).tasks0 t).flags = .running
      rw [joined_tasks0]
      split
      next => rfl
      next hxt => simpa [hxt] using h.running
    · refine (hremoved.join (hnow.remove x) fun hnowLv hzero => ?_).congr rfl rfl
      have hnowLv' : askedLevel s.ctl x level = s.ctl.nowLv := hnowLv.trans (remove_nowLv s.ctl x)
      rw [remove_nowLv, ← hnowLv', remove_level_ne (Ne.symm hlev)] at hzero
      exact Option.some.inj (((hempty hzero).2 hnowLv').symm.trans h.tr)
  | @leave x hx hcur =>
    have hxt : x ≠ t := fun heq => hcur (heq ▸ h.current.slot)
    refine ⟨t, hinv, h.tr, ?_, h.current.remove_other h.inv.sched hnow hx hxt⟩
    simpa [Ne.symm hxt] using h.running
  | slumber hx hcur => exact Executing.of_switch hinv rfl (hswitch hx hcur)
  | switch =>
    refine Executing.of_switch hinv ?_ hswitch
    show (if _ then _ else _) = _
    split
    next heq => rw [h.tr, heq, h.current.slot]
    next => rfl

/-- The sleep of the executing task switches away from it. -/
theorem Executing.sleepsAway (h : Executing s t) (hs : TaskStep s op s') (hs' : Sched s'.ctl)
    (hop : op.Steady s) : SleepsAway s op s' := by
  obtain ⟨-, hswitch⟩ := h.inv.step hs hs' (h.safe hop)
  cases hs with
  | idle hidle =>
    match op, hidle with
    | .alloc, _ | .run none _ _, _ | .sleep none, _ => exact trivial
    | .sleep (some x), hidle => exact fun _ hx => absurd hx hidle
  | alloc _ | touch _ | wake _ | move _ _ | switch => exact trivial
  | leave _ hcur =>
    intro htr _
    exact absurd (h.current.slot.trans (h.tr.symm.trans htr)) hcur
  | @slumber x hx hcur =>
    intro _ _
    obtain ⟨y, hy, hrun, -⟩ := hs'.exists_of_mem (hswitch hx hcur)
    refine ⟨y, ?_, hy, hrun⟩
    rintro rfl
    have hasleep : ((mprocessTaskRemove s.ctl y).tasks0 y).flags = .running := hrun
    simp at hasleep

theorem Executing.start : Executing taskStart 0 := by
  refine ⟨NowInv.start, ?_, ?_, ?_, ?_⟩ <;> rw [taskStart_eq]
  · rfl
  · rfl
  · exact fun hempty => absurd hempty Nat.one_ne_zero

end Executing

/-- **The current task is the executing one** along every history of steady calls
in which the levels have room, as long as that task runs, and
`mprocess_task_sleep` of the executing task switches away from it. -/
theorem executing_is_current (ops : List TaskOp)
    (hops : taskMachine.AllSteps (fun s op => op.Fits s.ctl ∧ op.Steady s) taskStart ops) :
    taskMachine.Always (fun s => ∀ t, s.tr = some t → (s.ctl.tasks0 t).flags = .running →
      mprocessTaskGetCurrent s.ctl = some t) SleepsAway taskStart ops := by
  refine Machine.always_of_inv (fun s (h : ∃ t, Executing s t) => ?_) ?_ ⟨0, Executing.start⟩ hops
  · obtain ⟨t, h⟩ := h
    intro x hx _
    rw [h.current.slot, ← h.tr, hx]
  · rintro s op ⟨t, h⟩ ⟨hfits, hsteady⟩
    obtain ⟨s', hs', hsched, hstep⟩ := h.inv.sched.step hfits
    exact ⟨s', hs', h.sleepsAway hstep hsched hsteady, h.step hstep hsched hsteady⟩

/-- The tasks that `kernel_main` starts: the caller moves from level 0, where it is
alone, and goes to sleep later. -/
theorem executing_is_current_kernel_main :
    taskMachine.Always (fun s => ∀ t, s.tr = some t → (s.ctl.tasks0 t).flags = .running →
      mprocessTaskGetCurrent s.ctl = some t) SleepsAway taskStart
      [.run (some 0) 1 2, .alloc, .run (some 2) 2 1, .alloc, .run (some 3) 2 2, .autoswitch,
        .sleep (some 0), .run (some 0) (-1) 0, .autoswitch] :=
  executing_is_current _ (by rw [taskStart_eq]; decide +kernel)

/-- A second task runs at level 0 when the caller moves itself to level 1: the
current task is then the second one, though the caller executes, and when the
caller goes to sleep nothing is switched. -/
theorem current_differs_after_move :
    taskMachine.AllSteps (fun s op => op.Fits s.ctl) taskStart
      [.alloc, .run (some 2) 0 2, .run (some 0) 1 2, .sleep (some 0)] ∧
    (taskMachine.run taskStart [.alloc, .run (some 2) 0 2, .run (some 0) 1 2]).map
      (fun s => (s.tr, (s.ctl.tasks0 0).flags, mprocessTaskGetCurrent s.ctl)) =
      some (some 0, .running, some 2) ∧
    (taskMachine.run taskStart
      [.alloc, .run (some 2) 0 2, .run (some 0) 1 2, .sleep (some 0)]).map
      (fun s => (s.tr, (s.ctl.tasks0 0).flags)) = some (some 0, .allocated) := by
  rw [taskStart_eq]
  decide +kernel

end UnagiOs
