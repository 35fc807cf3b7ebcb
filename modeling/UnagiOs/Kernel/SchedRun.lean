import Mathlib.Data.Fintype.Basic
import UnagiOs.Theory.Machine
import UnagiOs.Kernel.Sched

/-!
# Histories of the scheduler

The machine is the scheduler together with the task register `tr`, which
`_gdt_ltr` and every `_farjmp` load: the task it names is the one that executes.

- `runLists_ok`: along every history in which the levels have room, the run lists
  and the tasks agree.
- `nowInRange_iff`: the index `now` of every level that is not empty stays in
  range, and every switch goes to a runnable task, iff no task joins an empty
  level whose `now` is not 0 and there is a runnable task to switch to.
  `mprocess_task_autoswitch` advances `now` before it looks at `lv_change`, so it
  leaves 1 behind in a level that has just been emptied.
-/

namespace UnagiOs

/-- The scheduler and the task that executes. -/
structure Cpu where
  ctl : TASKCTL
  tr : Option TaskId

/-- Calls of the functions of process.c. -/
inductive TaskOp where
  | alloc
  | run (task : Option TaskId) (level : Int) (priority : Nat)
  | sleep (task : Option TaskId)
  | autoswitch

/-- The task register after a jump. -/
def Jump.land (tr : Option TaskId) : Jump → Option TaskId
  | .stay => tr
  | .farjmp cs => gdtTask cs
  | .wild => none

/-- process.c as a machine. -/
def taskMachine : Machine Cpu TaskOp where
  step s
    | .alloc => some { s with ctl := (mprocessTaskAlloc s.ctl).1 }
    | .run task level priority =>
      (mprocessTaskRun s.ctl task level priority).map fun c => { s with ctl := c }
    | .sleep task =>
      let (c, jump) := mprocessTaskSleep s.ctl task
      some ⟨c, jump.land s.tr⟩
    | .autoswitch =>
      let a := mprocessTaskAutoswitch s.ctl
      some ⟨a.ctl, a.jump.land s.tr⟩

/-- The state after `mprocess_init`. -/
def taskStart : Cpu :=
  match mprocessInit with
  | some (c, t) => ⟨c, t⟩
  | none => ⟨mprocessInitTasks, none⟩

/-- The call puts the task on the list of the level. -/
def Joins (c : TASKCTL) (t : TaskId) (level : Int) : Prop :=
  (c.tasks0 t).flags = .allocated ∨
    (c.tasks0 t).flags = .running ∧ (c.tasks0 t).level ≠ askedLevel c t level

instance (c : TASKCTL) (t : TaskId) (level : Int) : Decidable (Joins c t level) :=
  inferInstanceAs (Decidable (_ ∨ _))

/-- The level exists, and has room if the task joins it. -/
def TaskOp.Fits (c : TASKCTL) : TaskOp → Prop
  | .run (some t) level _ => level < osMprocessTasklevelsMax ∧
      (Joins c t level →
        (c.level (askedLevel c t level)).running < osMprocessTasklevelTasksMax)
  | _ => True

instance (c : TASKCTL) : ∀ op : TaskOp, Decidable (op.Fits c)
  | .run (some _) _ _ => inferInstanceAs (Decidable (_ ∧ _))
  | .run none _ _ | .alloc | .sleep _ | .autoswitch => isTrue trivial

/-! ## What a call can do -/

/-- The call changes nothing. -/
def TaskOp.Idle (c : TASKCTL) : TaskOp → Prop
  | .alloc => ∀ t, (c.tasks0 t).flags ≠ .free
  | .run none _ _ => True
  | .run (some _) _ _ => False
  | .sleep none => True
  | .sleep (some t) => (c.tasks0 t).flags ≠ .running
  | .autoswitch => False

/-- The scheduler after `mprocess_task_autoswitch`. -/
def switched (c : TASKCTL) : TASKCTL := (mprocessTaskAutoswitch c).ctl

/-- The scheduler after the current task has gone to sleep. -/
def slumbered (c : TASKCTL) (t : TaskId) : TASKCTL :=
  mprocessTaskUpdateCurrentlv (mprocessTaskRemove c t)

/-- What a call can do to the scheduler and to the task register. -/
inductive TaskStep (s : Cpu) : TaskOp → Cpu → Prop where
  | idle {op : TaskOp} : op.Idle s.ctl → TaskStep s op s
  | alloc {t : TaskId} : (s.ctl.tasks0 t).flags = .free →
      TaskStep s .alloc
        ⟨s.ctl.setTask t { s.ctl.tasks0 t with flags := .allocated, priority := 2 }, s.tr⟩
  /-- The task is free, or runs at that level already. -/
  | touch {t : TaskId} {level : Int} {priority : Nat} : ¬ Joins s.ctl t level →
      TaskStep s (.run (some t) level priority)
        ⟨(s.ctl.setTask t (askedPriority s.ctl t priority)).changed, s.tr⟩
  | wake {t : TaskId} {level : Int} {priority : Nat} : (s.ctl.tasks0 t).flags = .allocated →
      TaskStep s (.run (some t) level priority)
        ⟨(joined (s.ctl.setTask t (askedTask s.ctl t level priority)) t).changed, s.tr⟩
  | move {t : TaskId} {level : Int} {priority : Nat} : (s.ctl.tasks0 t).flags = .running →
      (s.ctl.tasks0 t).level ≠ askedLevel s.ctl t level →
      TaskStep s (.run (some t) level priority)
        ⟨(joined ((mprocessTaskRemove s.ctl t).setTask t
          (askedTask s.ctl t level priority)) t).changed, s.tr⟩
  /-- A task other than the current one goes to sleep. -/
  | leave {t : TaskId} : (s.ctl.tasks0 t).flags = .running →
      mprocessTaskGetCurrent s.ctl ≠ some t →
      TaskStep s (.sleep (some t)) ⟨mprocessTaskRemove s.ctl t, s.tr⟩
  /-- The current task goes to sleep. -/
  | slumber {t : TaskId} : (s.ctl.tasks0 t).flags = .running →
      mprocessTaskGetCurrent s.ctl = some t →
      TaskStep s (.sleep (some t))
        ⟨slumbered s.ctl t, mprocessTaskGetCurrent (slumbered s.ctl t)⟩
  | switch : TaskStep s .autoswitch
      ⟨switched s.ctl, if mprocessTaskGetCurrent (switched s.ctl) = mprocessTaskGetCurrent s.ctl
        then s.tr else mprocessTaskGetCurrent (switched s.ctl)⟩

section Step

variable {c : TASKCTL} {s : Cpu} {op : TaskOp} {t : TaskId} {level : Int} {priority : Nat}
  {s' : Cpu}

/-- A jump to a task lands there. -/
theorem Sched.land (h : Sched c) (tr task : Option TaskId) : (farjmpTo c task).land tr = task := by
  cases task with
  | none => rfl
  | some t => exact (congrArg gdtTask (h.selector t)).trans (gdtTask_selector t)

theorem Sched.update (h : Sched c) : Sched (mprocessTaskUpdateCurrentlv c) := h.congr rfl rfl

/-- A level after `now` has been advanced. -/
def TASKLEVEL.advance (tl : TASKLEVEL) : TASKLEVEL :=
  { tl with now := if tl.now + 1 = tl.running then 0 else tl.now + 1 }

theorem switched_eq (c : TASKCTL) : switched c =
    if c.lvChange = true then
      mprocessTaskUpdateCurrentlv (c.setLevel c.nowLv (c.level c.nowLv).advance)
    else c.setLevel c.nowLv (c.level c.nowLv).advance := rfl

theorem Sched.advance (h : Sched c) (l : LevelId) : Sched (c.setLevel l (c.level l).advance) := by
  have hentries : ∀ i, ((c.setLevel l (c.level l).advance).level i).entries =
      (c.level i).entries := by
    intro i
    rw [setLevel_map c l i TASKLEVEL.advance]
    split <;> rfl
  refine ⟨fun i => ?_, fun i => ?_, fun i x => ?_, h.selector⟩ <;> rw [hentries]
  exacts [h.nodup i, h.proper i, h.mem i x]

theorem Sched.autoswitch (h : Sched c) : Sched (switched c) := by
  rw [switched_eq]
  split
  · exact (h.advance _).update
  · exact h.advance _

/-- A call of `mprocess_task_run` for a level with room. -/
theorem Sched.step_run (h : Sched s.ctl) (hop : TaskOp.Fits s.ctl (.run (some t) level priority)) :
    ∃ s', taskMachine.step s (.run (some t) level priority) = some s' ∧ Sched s'.ctl ∧
      TaskStep s (.run (some t) level priority) s' := by
  obtain ⟨hl, hroom⟩ := hop
  by_cases hjoin : Joins s.ctl t level
  · have hroom := hroom hjoin
    rcases hjoin with ht | ⟨ht, hlev⟩
    · have hjoined : Sched (joined (s.ctl.setTask t (askedTask s.ctl t level priority)) t) :=
        h.join (by simp [ht]) rfl
      refine ⟨_, ?_, hjoined.congr rfl rfl, .wake ht⟩
      simp only [taskMachine, run_wake hl h ht, if_pos hroom]
      rfl
    · have hjoined : Sched (joined ((mprocessTaskRemove s.ctl t).setTask t
          (askedTask s.ctl t level priority)) t) :=
        (h.remove ht).join (by simp) (by simp [askedTask, askedPriority])
      refine ⟨_, ?_, hjoined.congr rfl rfl, .move ht hlev⟩
      simp only [taskMachine, run_move hl h ht hlev, if_pos hroom]
      rfl
  · have ht : (s.ctl.tasks0 t).flags = .free ∨ (s.ctl.tasks0 t).flags = .running ∧
        (s.ctl.tasks0 t).level = askedLevel s.ctl t level := by
      simp only [Joins] at hjoin
      cases hf : (s.ctl.tasks0 t).flags <;> simp_all
    have htouch : Sched (s.ctl.setTask t (askedPriority s.ctl t priority)) :=
      h.setTask rfl fun l => Iff.rfl
    refine ⟨_, by simp only [taskMachine, run_touch hl ht]; rfl, ?_, .touch hjoin⟩
    exact htouch.congr rfl rfl

/-- A call of `mprocess_task_sleep`. -/
theorem Sched.step_sleep (h : Sched s.ctl) (t : TaskId) :
    ∃ s', taskMachine.step s (.sleep (some t)) = some s' ∧ Sched s'.ctl ∧
      TaskStep s (.sleep (some t)) s' := by
  by_cases ht : (s.ctl.tasks0 t).flags = .running
  · by_cases hcur : mprocessTaskGetCurrent s.ctl = some t
    · refine ⟨_, ?_, (h.remove ht).update, .slumber ht hcur⟩
      simp only [taskMachine, mprocessTaskSleep, ht, hcur, ne_eq, not_true_eq_false, if_false,
        if_true, (h.remove ht).update.land]
      rfl
    · refine ⟨_, ?_, h.remove ht, .leave ht hcur⟩
      simp only [taskMachine, mprocessTaskSleep, ht, ne_eq, not_true_eq_false, if_false,
        if_neg (Ne.symm hcur)]
      rfl
  · refine ⟨s, ?_, h, .idle ht⟩
    simp only [taskMachine, mprocessTaskSleep, ne_eq, ht, not_false_eq_true, if_true]
    rfl

/-- A call of `mprocess_task_autoswitch`. -/
theorem Sched.step_autoswitch (h : Sched s.ctl) :
    ∃ s', taskMachine.step s .autoswitch = some s' ∧ Sched s'.ctl ∧ TaskStep s .autoswitch s' := by
  refine ⟨_, ?_, h.autoswitch, .switch⟩
  have heq : (mprocessTaskAutoswitch s.ctl).jump =
      if mprocessTaskGetCurrent (switched s.ctl) ≠ mprocessTaskGetCurrent s.ctl
      then farjmpTo (switched s.ctl) (mprocessTaskGetCurrent (switched s.ctl))
      else .stay := rfl
  have hjump : (mprocessTaskAutoswitch s.ctl).jump.land s.tr =
      if mprocessTaskGetCurrent (switched s.ctl) = mprocessTaskGetCurrent s.ctl
      then s.tr else mprocessTaskGetCurrent (switched s.ctl) := by
    rw [heq]
    by_cases hcur : mprocessTaskGetCurrent (switched s.ctl) = mprocessTaskGetCurrent s.ctl
    · rw [if_neg (not_not.mpr hcur), if_pos hcur]
      rfl
    · rw [if_pos hcur, if_neg hcur, h.autoswitch.land]
  simp only [taskMachine, hjump]
  rfl

/-- **Every call that fits goes through, does one of these things and keeps the
run lists in order.** -/
theorem Sched.step (h : Sched s.ctl) (hop : op.Fits s.ctl) :
    ∃ s', taskMachine.step s op = some s' ∧ Sched s'.ctl ∧ TaskStep s op s' := by
  match op, hop with
  | .alloc, _ =>
    rcases mprocessTaskAlloc_cases s.ctl with ⟨heq, hno⟩ | ⟨t, heq, ht, -⟩
    · exact ⟨s, by simp only [taskMachine, heq], h, .idle hno⟩
    · refine ⟨_, by simp only [taskMachine, heq], ?_, .alloc ht⟩
      exact h.setTask rfl (by simp [ht])
  | .run none _ _, _ => exact ⟨s, rfl, h, .idle trivial⟩
  | .run (some t) _ _, hop => exact h.step_run hop
  | .sleep none, _ => exact ⟨s, rfl, h, .idle trivial⟩
  | .sleep (some t), _ => exact h.step_sleep t
  | .autoswitch, _ => exact h.step_autoswitch

/-- A call of `mprocess_task_run` that goes through fits, or is for a free task. -/
theorem Sched.fits_of_step (h : Sched s.ctl)
    (hs : taskMachine.step s (.run (some t) level priority) = some s')
    (hfree : (s.ctl.tasks0 t).flags ≠ .free) :
    TaskOp.Fits s.ctl (.run (some t) level priority) := by
  have hsome : mprocessTaskRun s.ctl (some t) level priority ≠ none := fun hnone => by
    simp [taskMachine, hnone] at hs
  have hl : level < osMprocessTasklevelsMax := by
    by_contra hge
    exact hsome (run_no_level priority (Int.not_lt.mp hge) hfree)
  refine ⟨hl, fun hjoin => ?_⟩
  by_contra hfull
  rcases hjoin with ht | ⟨ht, hlev⟩
  · exact hsome ((run_wake hl h ht).trans (if_neg hfull))
  · exact hsome ((run_move hl h ht hlev).trans (if_neg hfull))

/-- **Every call that goes through** does one of these things and keeps the run lists in
order. -/
theorem Sched.of_step (h : Sched s.ctl) (hs : taskMachine.step s op = some s') :
    Sched s'.ctl ∧ TaskStep s op s' := by
  have hfits : op.Fits s.ctl → Sched s'.ctl ∧ TaskStep s op s' := by
    intro hop
    obtain ⟨s'', hs'', h', hstep⟩ := h.step hop
    cases hs.symm.trans hs''
    exact ⟨h', hstep⟩
  match op with
  | .alloc | .run none _ _ | .sleep _ | .autoswitch => exact hfits trivial
  | .run (some t) level priority =>
    by_cases hfree : (s.ctl.tasks0 t).flags = .free
    · simp only [taskMachine, run_free level priority hfree, Option.map_some] at hs
      cases hs
      refine ⟨?_, .touch (by simp [Joins, hfree])⟩
      exact (h.setTask (v := askedPriority s.ctl t priority) rfl fun _ => Iff.rfl).congr rfl rfl
    · exact hfits (h.fits_of_step hs hfree)

end Step

/-! ## The run lists -/

theorem taskStart_eq : taskStart = ⟨initTaskctl, some 0⟩ := by
  unfold taskStart
  rw [mprocessInit_eq]

theorem taskStart_sched : Sched taskStart.ctl := by
  rw [taskStart_eq]
  exact sched_init

/-- The run lists agree with the tasks. -/
structure RunListsOk (c : TASKCTL) : Prop where
  distinct : ∀ l, (c.level l).entries.Nodup
  running_iff : ∀ t, (c.tasks0 t).flags = .running ↔ ∃! l, some t ∈ (c.level l).entries
  level_eq : ∀ t l, some t ∈ (c.level l).entries → l = (c.tasks0 t).level

theorem Sched.runListsOk {c : TASKCTL} (h : Sched c) : RunListsOk c := by
  refine ⟨h.nodup, fun t => ⟨fun ht => ?_, ?_⟩, fun t l hl => ((h.mem l t).mp hl).2.symm⟩
  · exact ⟨_, h.mem_level ht, fun l hl => ((h.mem l t).mp hl).2.symm⟩
  · rintro ⟨l, hl, -⟩
    exact ((h.mem l t).mp hl).1

/-- **The run lists stay in order** along every history in which the levels have
room: the entries of a level are distinct, and the running tasks are those on
exactly one list, that of their level. -/
theorem runLists_ok (ops : List TaskOp)
    (hfits : taskMachine.AllSteps (fun s op => op.Fits s.ctl) taskStart ops) :
    ∃ s, taskMachine.run taskStart ops = some s ∧ RunListsOk s.ctl := by
  have hstep : ∀ (s : Cpu) (op : TaskOp), Sched s.ctl → op.Fits s.ctl →
      ∃ s', taskMachine.step s op = some s' ∧ Sched s'.ctl := by
    intro s op h hop
    obtain ⟨s', hs', h', -⟩ := h.step hop
    exact ⟨s', hs', h'⟩
  obtain ⟨s, hrun, h⟩ := Machine.run_of_inv hstep taskStart_sched hfits
  exact ⟨s, hrun, h.runListsOk⟩

/-- The caller moves to level 1, a second task joins it there and both go to sleep. -/
theorem runLists_ok_two_tasks : ∃ s, taskMachine.run taskStart
      [.run (some 0) 1 2, .alloc, .run (some 2) 1 1, .autoswitch, .sleep (some 0),
        .sleep (some 2)] = some s ∧ RunListsOk s.ctl :=
  runLists_ok _ (by rw [taskStart_eq]; decide +kernel)

/-! ## A switch -/

section Switched

variable (c : TASKCTL) (l : LevelId)

theorem switched_lvChange : (switched c).lvChange = false := by
  rw [switched_eq]
  split
  next => rfl
  next hlv => exact Bool.eq_false_of_not_eq_true hlv

theorem switched_tasks0 : (switched c).tasks0 = c.tasks0 := by
  rw [switched_eq]
  split <;> rfl

/-- While no change of level is pending the level stays the same. -/
theorem switched_nowLv (hlv : c.lvChange = false) : (switched c).nowLv = c.nowLv := by
  rw [switched_eq, if_neg (by simp [hlv])]
  rfl

/-- The switch changes no list. -/
theorem switched_level :
    (switched c).level l = if l = c.nowLv then (c.level l).advance else c.level l := by
  rw [switched_eq]
  split <;> exact setLevel_map c c.nowLv l TASKLEVEL.advance

theorem switched_tasks : ((switched c).level l).tasks = (c.level l).tasks := by
  rw [switched_level]
  split <;> rfl

theorem switched_running : ((switched c).level l).running = (c.level l).running := by
  rw [switched_level]
  split <;> rfl

end Switched

/-! ## The current level -/

/-- The run lists are in order, and where `lv_change` is not set the current level is the
lowest one as long as a task runs. -/
structure LevelInv (c : TASKCTL) : Prop where
  sched : Sched c
  lowest : c.lvChange = false → (∃ t, (c.tasks0 t).flags = .running) → Lowest c c.nowLv

section Level

variable {c : TASKCTL} {t : TaskId} {s s' : Cpu} {op : TaskOp}

theorem LevelInv.update (h : Sched c) : LevelInv (mprocessTaskUpdateCurrentlv c) := by
  refine ⟨h.update, ?_⟩
  rintro - ⟨t, ht⟩
  exact update_lowest (h.running_pos ht)

/-- A task leaves its level. If that empties the level, `lv_change` is set. -/
theorem LevelInv.leave (h : LevelInv c) (ht : (c.tasks0 t).flags = .running) :
    LevelInv (mprocessTaskRemove c t) := by
  refine ⟨h.sched.remove ht, fun hlv _ => ?_⟩
  rw [remove_lvChange, Bool.or_eq_false_iff, decide_eq_false_iff_not] at hlv
  obtain ⟨hpos, hbelow⟩ := h.lowest hlv.1 ⟨t, ht⟩
  rw [remove_nowLv]
  refine ⟨?_, fun i hi => ?_⟩
  · rw [remove_level]
    split
    next heq =>
      simp only [TASKLEVEL.without, heq]
      omega
    next => exact hpos
  · rw [remove_level_ne]
    · exact hbelow i hi
    · rintro rfl
      exact Nat.ne_of_gt (h.sched.running_pos ht) (hbelow _ hi)

theorem LevelInv.switched (h : LevelInv c) : LevelInv (UnagiOs.switched c) := by
  by_cases hlv : c.lvChange = true
  · rw [switched_eq, if_pos hlv]
    exact LevelInv.update (h.sched.advance _)
  · have hlv : c.lvChange = false := Bool.eq_false_of_not_eq_true hlv
    refine ⟨h.sched.autoswitch, fun _ ht => ?_⟩
    simp only [Lowest, switched_running, switched_nowLv c hlv]
    exact h.lowest hlv (by rwa [switched_tasks0] at ht)

/-- **Every call keeps the current level.** -/
theorem LevelInv.step (h : LevelInv s.ctl) (hs : TaskStep s op s') (hs' : Sched s'.ctl) :
    LevelInv s'.ctl := by
  cases hs with
  | idle _ => exact h
  | @alloc t ht =>
    refine ⟨hs', fun hlv hex => h.lowest hlv ?_⟩
    obtain ⟨x, hx⟩ := hex
    by_cases hxt : x = t
    · simp [hxt] at hx
    · exact ⟨x, by simpa [hxt] using hx⟩
  -- `mprocess_task_run` sets `lv_change` in any case
  | touch _ => exact ⟨hs', fun hlv => Bool.noConfusion hlv⟩
  | wake _ => exact ⟨hs', fun hlv => Bool.noConfusion hlv⟩
  | move _ _ => exact ⟨hs', fun hlv => Bool.noConfusion hlv⟩
  | leave ht _ => exact h.leave ht
  | slumber ht _ => exact LevelInv.update (h.sched.remove ht)
  | switch => exact h.switched

theorem LevelInv.start : LevelInv taskStart.ctl := by
  refine ⟨taskStart_sched, fun hlv => ?_⟩
  rw [taskStart_eq] at hlv
  cases hlv

end Level

/-! ## The index `now` -/

/-- `now` is the index of an entry in every level that is not empty. -/
def NowInRange (c : TASKCTL) : Prop :=
  ∀ l, 0 < (c.level l).running → (c.level l).now < (c.level l).running

/-- What the call switches to, if it does, is an entry of the level it selects. -/
def SwitchesToRunnable (s : Cpu) (op : TaskOp) (s' : Cpu) : Prop :=
  match op with
  | .autoswitch =>
    (mprocessTaskAutoswitch s.ctl).taskNext ∈ (s'.ctl.level s'.ctl.nowLv).entries
  | .sleep (some t) => (s.ctl.tasks0 t).flags = .running →
      mprocessTaskGetCurrent s.ctl = some t → s'.tr ∈ (s'.ctl.level s'.ctl.nowLv).entries
  | _ => True

/-- A task that joins an empty level finds its `now` at 0, and a switch finds a
runnable task. -/
def TaskOp.Safe (c : TASKCTL) : TaskOp → Prop
  | .run (some t) level _ => Joins c t level →
      (c.level (askedLevel c t level)).running = 0 → (c.level (askedLevel c t level)).now = 0
  | .sleep (some t) => (c.tasks0 t).flags = .running → mprocessTaskGetCurrent c = some t →
      ∃ x, x ≠ t ∧ (c.tasks0 x).flags = .running
  | .autoswitch => ∃ x, (c.tasks0 x).flags = .running
  | _ => True

instance (c : TASKCTL) : ∀ op : TaskOp, Decidable (op.Safe c)
  | .run (some _) _ _ | .sleep (some _) => inferInstanceAs (Decidable (_ → _ → _))
  | .autoswitch => inferInstanceAs (Decidable (∃ _, _))
  | .run none _ _ | .sleep none | .alloc => isTrue trivial

section Now

variable {c : TASKCTL} {t : TaskId} {v : TASK} {s s' : Cpu} {op : TaskOp}

theorem TaskOp.Idle.safe (hop : op.Idle c) : op.Safe c := by
  match op, hop with
  | .alloc, _ | .run none _ _, _ | .sleep none, _ => exact trivial
  | .sleep (some t), hop => exact fun ht => absurd ht hop

theorem TaskOp.Idle.switchesToRunnable (hop : op.Idle s.ctl) : SwitchesToRunnable s op s' := by
  match op, hop with
  | .alloc, _ | .run none _ _, _ | .sleep none, _ => exact trivial
  | .sleep (some t), hop => exact fun ht => absurd ht hop

/-- One level changes, and its `now` is in range afterwards. -/
theorem NowInRange.mapLevel {c' : TASKCTL} {k : LevelId} {f : TASKLEVEL → TASKLEVEL}
    (h : NowInRange c) (hlevel : ∀ l, c'.level l = if l = k then f (c.level l) else c.level l)
    (hf : 0 < (f (c.level k)).running → (f (c.level k)).now < (f (c.level k)).running) :
    NowInRange c' :=
  level_rule (fun _ tl => 0 < tl.running → tl.now < tl.running) hlevel h hf

/-- A task can join a level that is not empty, or whose `now` is 0. -/
theorem NowInRange.join_iff (h : NowInRange c) :
    NowInRange (joined (c.setTask t v) t) ↔
      ((c.level v.level).running = 0 → (c.level v.level).now = 0) := by
  constructor
  · intro h' hempty
    have hlt := h' v.level
    rw [joined_level, if_pos rfl] at hlt
    have := hlt (Nat.succ_pos _)
    simp only [TASKLEVEL.push, hempty] at this
    omega
  · intro hnow
    refine h.mapLevel (f := (·.push t)) (joined_level c t v) fun _ => ?_
    simp only [TASKLEVEL.push]
    have := h v.level
    omega

theorem NowInRange.remove (h : NowInRange c) (t : TaskId) :
    NowInRange (mprocessTaskRemove c t) := by
  refine h.mapLevel (f := (·.without t)) (remove_level c t) fun hl => ?_
  simp only [TASKLEVEL.without] at hl ⊢
  -- whatever the index is, it falls back to 0 where it would leave the range
  have hback : ∀ now n : Nat, 0 < n → (if now ≥ n then 0 else now) < n := by
    intro now n hn
    split <;> omega
  exact hback _ _ hl

theorem NowInRange.switched (h : NowInRange c) : NowInRange (switched c) := by
  refine h.mapLevel (switched_level c) fun hl => ?_
  have := h _ hl
  simp only [TASKLEVEL.advance] at hl ⊢
  split <;> omega

/-- An entry is a running task. -/
theorem Sched.exists_of_mem (h : Sched c) {l : LevelId} {x : Option TaskId}
    (hx : x ∈ (c.level l).entries) :
    ∃ t, x = some t ∧ (c.tasks0 t).flags = .running ∧ (c.tasks0 t).level = l := by
  cases x with
  | none => exact absurd hx (h.proper l)
  | some t => exact ⟨t, rfl, (h.mem l t).mp hx⟩

/-- The current level is the lowest one, and `now` is in range. -/
structure NowInv (c : TASKCTL) : Prop extends LevelInv c where
  now : NowInRange c

/-- With `now` in range, the current task of a level that is not empty is an entry. -/
theorem NowInv.current_mem (h : NowInv c) (hlv : c.lvChange = false)
    (ht : ∃ t, (c.tasks0 t).flags = .running) :
    mprocessTaskGetCurrent c ∈ (c.level c.nowLv).entries :=
  mem_slots.mpr ⟨_, h.now _ (h.lowest hlv ht).1, rfl⟩

/-- **A call that is safe** keeps `now` in range and switches to a runnable task. -/
theorem NowInv.step (h : NowInv s.ctl) (hs : TaskStep s op s') (hs' : Sched s'.ctl)
    (hsafe : op.Safe s.ctl) : NowInv s'.ctl ∧ SwitchesToRunnable s op s' := by
  have hlevel := h.toLevelInv.step hs hs'
  cases hs with
  | idle hop => exact ⟨h, hop.switchesToRunnable⟩
  | alloc _ => exact ⟨⟨hlevel, h.now⟩, trivial⟩
  | touch _ => exact ⟨⟨hlevel, h.now⟩, trivial⟩
  | @wake t level priority ht =>
    have hnow := (h.now.join_iff (t := t) (v := askedTask s.ctl t level priority)).mpr
      (hsafe (.inl ht))
    exact ⟨⟨hlevel, hnow⟩, trivial⟩
  | @move t level priority ht hlev =>
    have hnow := ((h.now.remove t).join_iff (t := t) (v := askedTask s.ctl t level priority)).mpr
    simp only [askedTask, remove_level_ne (Ne.symm hlev)] at hnow
    exact ⟨⟨hlevel, hnow (hsafe (.inr ⟨ht, hlev⟩))⟩, trivial⟩
  | leave _ hcur => exact ⟨⟨hlevel, h.now.remove _⟩, fun _ hcur' => absurd hcur' hcur⟩
  | @slumber t ht hcur =>
    have h' : NowInv (slumbered s.ctl t) := ⟨hlevel, h.now.remove t⟩
    refine ⟨h', fun _ _ => h'.current_mem rfl ?_⟩
    obtain ⟨x, hxt, hx⟩ := hsafe ht hcur
    refine ⟨x, ?_⟩
    show ((mprocessTaskRemove s.ctl t).tasks0 x).flags = .running
    simpa [hxt] using hx
  | switch =>
    have h' : NowInv (switched s.ctl) := ⟨hlevel, h.now.switched⟩
    refine ⟨h', ?_⟩
    exact h'.current_mem (switched_lvChange _) (by rw [switched_tasks0]; exact hsafe)

/-- **A call that is not safe** leaves `now` out of range or switches to a task
that is not runnable. -/
theorem NowInv.safe_of_step (h : NowInv s.ctl) (hs : TaskStep s op s') (hs' : Sched s'.ctl)
    (hswitch : SwitchesToRunnable s op s') (hnow : NowInRange s'.ctl) : op.Safe s.ctl := by
  cases hs with
  | idle hop => exact hop.safe
  | alloc _ => exact trivial
  | touch hjoin => exact fun hj => absurd hj hjoin
  | @wake t level priority ht =>
    exact fun _ => (h.now.join_iff (v := askedTask s.ctl t level priority)).mp hnow
  | @move t level priority ht hlev =>
    have hsafe := ((h.now.remove t).join_iff (v := askedTask s.ctl t level priority)).mp hnow
    simp only [askedTask, remove_level_ne (Ne.symm hlev)] at hsafe
    exact fun _ => hsafe
  | leave _ hcur => exact fun _ hcur' => absurd hcur' hcur
  | @slumber t ht hcur =>
    intro _ _
    obtain ⟨x, -, hx, -⟩ := hs'.exists_of_mem (hswitch ht hcur)
    have hx' : ((mprocessTaskRemove s.ctl t).tasks0 x).flags = .running := hx
    by_cases hxt : x = t
    · simp [hxt] at hx'
    · exact ⟨x, hxt, by simpa [hxt] using hx'⟩
  | switch =>
    obtain ⟨x, -, hx, -⟩ := hs'.exists_of_mem hswitch
    exact ⟨x, by simpa [switched_tasks0] using hx⟩

theorem NowInv.start : NowInv taskStart.ctl := by
  refine ⟨LevelInv.start, ?_⟩
  rw [taskStart_eq]
  intro l hl
  simp only [initTaskctl] at hl ⊢
  split at hl
  next h0 => simp [h0]
  next h0 =>
    split at hl
    next h9 => simp [h9]
    next => cases hl

end Now

/-- **`now` stays in range iff the calls are safe.** Along every history in which
the levels have room: `now` is in range in every state and every switch goes to a
runnable task iff no task joins an empty level whose `now` is not 0, and no
switch is made while no other task runs. -/
theorem nowInRange_iff (ops : List TaskOp)
    (hfits : taskMachine.AllSteps (fun s op => op.Fits s.ctl) taskStart ops) :
    taskMachine.Always (fun s => NowInRange s.ctl) SwitchesToRunnable taskStart ops ↔
      taskMachine.AllSteps (fun s op => op.Safe s.ctl) taskStart ops := by
  refine Machine.always_iff (fun s (h : NowInv s.ctl) => h.now) ?_ ?_ NowInv.start hfits
  · intro s op h hop hsafe
    obtain ⟨s', hs', hsched, hstep⟩ := h.sched.step hop
    obtain ⟨h', hswitch⟩ := h.step hstep hsched hsafe
    exact ⟨s', hs', hswitch, h'⟩
  · intro s op s' h hop hbad hs' hswitch hnow
    obtain ⟨s'', hs'', hsched, hstep⟩ := h.sched.step hop
    cases hs'.symm.trans hs''
    exact hbad (h.safe_of_step hstep hsched hswitch hnow)

/-- The tasks that `kernel_main` starts, and two switches. -/
theorem nowInRange_iff_kernel_main :
    taskMachine.Always (fun s => NowInRange s.ctl) SwitchesToRunnable taskStart
      [.run (some 0) 1 2, .alloc, .run (some 2) 2 1, .alloc, .run (some 3) 2 2, .autoswitch,
        .sleep (some 0)] :=
  (nowInRange_iff _ (by rw [taskStart_eq]; decide +kernel)).mpr
    (by rw [taskStart_eq]; decide +kernel)

/-- The caller leaves level 0 and the next switch advances `now` there. A task that
joins level 0 later is its only entry, at index 0, while `now` is 1: the switch
after that goes to no task. -/
theorem now_out_of_range_after_move :
    taskMachine.AllSteps (fun s op => op.Fits s.ctl) taskStart
      [.run (some 0) 1 2, .autoswitch, .alloc, .run (some 2) 0 1, .autoswitch] ∧
    (taskMachine.run taskStart [.run (some 0) 1 2, .autoswitch, .alloc, .run (some 2) 0 1]).map
      (fun s => ((s.ctl.level 0).running, (s.ctl.level 0).now)) = some (1, 1) ∧
    (taskMachine.run taskStart
      [.run (some 0) 1 2, .autoswitch, .alloc, .run (some 2) 0 1, .autoswitch]).map
      (fun s => s.tr) = some none := by
  rw [taskStart_eq]
  decide +kernel

end UnagiOs
