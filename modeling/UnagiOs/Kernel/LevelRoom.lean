import UnagiOs.Kernel.SchedRun

/-!
# Room in the levels

A level has room for 100 tasks, and 1000 tasks can be allocated.

- `levelIndices_iff`: `__mprocess_task_add` and `mprocess_task_remove` stay within the
  `tasks` array of a level iff no task joins a full level.
- `level_overflows`: 99 tasks beside the first one fill level 0; the next one to join is
  stored behind the array, where the counters of level 1 are.
-/

namespace UnagiOs

/-- The index of `tl->tasks` that `__mprocess_task_add` writes. -/
def addIndex (c : TASKCTL) (task : TaskId) : Option Nat :=
  let tl := c.level (c.tasks0 task).level
  if tl.entries.contains (some task) then none else some tl.running

/-- The indices that `for (; i < tl->running; i++) tl->tasks[i] = tl->tasks[i + 1];` reads in
`mprocess_task_remove`. -/
def shiftIndices (c : TASKCTL) (task : TaskId) : List Nat :=
  let tl := c.level (c.tasks0 task).level
  let i := tl.entries.idxOf (some task)
  let running := tl.running - 1
  (List.range (running - i)).map fun k => i + k + 1

/-- The indices that `mprocess_task_run` reads and writes in these. -/
def runIndices (c : TASKCTL) (t : TaskId) (level : Int) (priority : Nat) : List Nat :=
  let level : Int := if level < 0 then ((c.tasks0 t).level : Nat) else level
  let c := if priority > 0 then c.setTask t { c.tasks0 t with priority := priority } else c
  let moves := (c.tasks0 t).flags = .running ∧ (((c.tasks0 t).level : Nat) : Int) ≠ level
  let read := if moves then shiftIndices c t else []
  let c := if moves then mprocessTaskRemove c t else c
  let written :=
    if (c.tasks0 t).flags = .allocated then
      if h : level.toNat < osMprocessTasklevelsMax then
        (addIndex (c.setTask t { c.tasks0 t with level := ⟨level.toNat, h⟩ }) t).toList
      else []
    else []
  read ++ written

/-- The indices that a call reads and writes in the `tasks` arrays. -/
def TaskOp.indices (c : TASKCTL) : TaskOp → List Nat
  | .run (some t) level priority => runIndices c t level priority
  | .sleep (some t) => if (c.tasks0 t).flags = .running then shiftIndices c t else []
  | _ => []

/-- The level of the call exists. -/
def TaskOp.LevelExists : TaskOp → Prop
  | .run _ level _ => level < osMprocessTasklevelsMax
  | _ => True

/-! ## The indices of a call -/

section Indices

variable {c : TASKCTL} {t : TaskId} {level : Int} {i : Nat}

theorem shiftIndices_setTask {v : TASK} (hv : v.level = (c.tasks0 t).level) :
    shiftIndices (c.setTask t v) t = shiftIndices c t := by
  simp [shiftIndices, hv]

/-- The shift reads slots in use. -/
theorem lt_of_mem_shiftIndices (hi : i ∈ shiftIndices c t) :
    i < (c.level (c.tasks0 t).level).running := by
  obtain ⟨k, hk, rfl⟩ := List.mem_map.mp hi
  rw [List.mem_range] at hk
  omega

/-- A task that joins a level is stored behind the slots in use. -/
theorem addIndex_of_not_mem {v : TASK} (hoff : some t ∉ (c.level v.level).entries) :
    addIndex (c.setTask t v) t = some (c.level v.level).running := by
  simp [addIndex, hoff]

/-- What `mprocess_task_run` reads and writes. -/
theorem Sched.runIndices_eq (h : Sched c) (hl : level < osMprocessTasklevelsMax)
    (priority : Nat) : runIndices c t level priority =
      (if (c.tasks0 t).flags = .running ∧ (c.tasks0 t).level ≠ askedLevel c t level then
        shiftIndices c t else []) ++
      (if Joins c t level then [(c.level (askedLevel c t level)).running] else []) := by
  have hlevel : ((((askedPriority c t priority).level : Nat) : Int) =
      (askedLevel c t level : Nat)) ↔ (c.tasks0 t).level = askedLevel c t level :=
    ⟨fun heq => Fin.ext (Int.ofNat_inj.mp heq), fun heq => by rw [← heq]; rfl⟩
  have hflags : (askedPriority c t priority).flags = (c.tasks0 t).flags := rfl
  have hshift : shiftIndices (c.setTask t (askedPriority c t priority)) t = shiftIndices c t :=
    shiftIndices_setTask rfl
  simp only [runIndices, askedLevel_val hl, askedPriority_eq, setTask_tasks0, if_pos, hflags,
    hshift, ne_eq, hlevel]
  congr 1
  by_cases hmove : (c.tasks0 t).flags = .running ∧ ¬ (c.tasks0 t).level = askedLevel c t level
  · have hoff : some t ∉ (c.level (askedLevel c t level)).entries := by
      simp [h.mem, hmove.2]
    have hjoin : Joins c t level := .inr hmove
    rw [if_pos hjoin]
    simp only [if_pos hmove, remove_tasks0, setTask_tasks0, if_pos, Int.toNat_natCast, Fin.is_lt,
      dif_pos, Fin.eta]
    rw [addIndex_of_not_mem] <;>
      simp only [remove_level, setTask_level, setTask_tasks0, if_pos, askedPriority,
        if_neg (Ne.symm hmove.2)]
    · rfl
    · exact hoff
  · simp only [if_neg hmove, setTask_tasks0, if_pos, hflags, Int.toNat_natCast, Fin.is_lt, dif_pos,
      Fin.eta, setTask_setTask]
    by_cases ht : (c.tasks0 t).flags = .allocated
    · have hoff : some t ∉ (c.level (askedLevel c t level)).entries := by
        simp [h.mem, ht]
      have hjoin : Joins c t level := .inl ht
      rw [if_pos ht, if_pos hjoin, addIndex_of_not_mem hoff]
      rfl
    · rw [if_neg ht, if_neg]
      rintro (hal | hrun)
      · exact ht hal
      · exact hmove hrun

end Indices

/-! ## Histories -/

/-- The run lists are in order and no level holds more tasks than its array. -/
structure LevelRoom (c : TASKCTL) : Prop where
  sched : Sched c
  room : ∀ l, (c.level l).running ≤ osMprocessTasklevelTasksMax

section Room

variable {c : TASKCTL} {t : TaskId} {v : TASK} {s s' : Cpu} {op : TaskOp}

theorem LevelRoom.lt_of_mem_shift (h : LevelRoom c) {i : Nat} (hi : i ∈ shiftIndices c t) :
    i < osMprocessTasklevelTasksMax :=
  Nat.lt_of_lt_of_le (lt_of_mem_shiftIndices hi) (h.room _)

/-- **A call stays within the arrays iff** the level that a task joins has room. -/
theorem LevelRoom.indices_iff (h : LevelRoom c) (hop : op.LevelExists) :
    (∀ i ∈ op.indices c, i < osMprocessTasklevelTasksMax) ↔ op.Fits c := by
  match op, hop with
  | .alloc, _ | .run none _ _, _ | .sleep none, _ | .autoswitch, _ =>
    exact iff_of_true (fun _ hi => absurd hi List.not_mem_nil) trivial
  | .sleep (some t), _ =>
    refine iff_of_true (fun i hi => ?_) trivial
    simp only [TaskOp.indices] at hi
    split at hi
    · exact h.lt_of_mem_shift hi
    · cases hi
  | .run (some t) level priority, hl =>
    simp only [TaskOp.indices, h.sched.runIndices_eq hl, List.mem_append, TaskOp.Fits]
    constructor
    · intro hlt
      exact ⟨hl, fun hjoin => hlt _ (.inr (by simp [hjoin]))⟩
    · rintro ⟨-, hroom⟩ i (hi | hi)
      · split at hi
        · exact h.lt_of_mem_shift hi
        · cases hi
      · split at hi
        next hjoin =>
          rw [List.mem_singleton.mp hi]
          exact hroom hjoin
        · cases hi

theorem LevelRoom.remove_le (h : LevelRoom c) (t : TaskId) (l : LevelId) :
    ((mprocessTaskRemove c t).level l).running ≤ osMprocessTasklevelTasksMax := by
  rw [remove_level]
  split
  · exact Nat.le_trans (Nat.sub_le _ _) (h.room l)
  · exact h.room l

theorem joined_le (hroom : ∀ l, (c.level l).running ≤ osMprocessTasklevelTasksMax)
    (hlt : (c.level v.level).running < osMprocessTasklevelTasksMax) (l : LevelId) :
    ((joined (c.setTask t v) t).level l).running ≤ osMprocessTasklevelTasksMax := by
  rw [joined_level]
  split
  next hl => exact hl ▸ hlt
  next => exact hroom l

/-- **No call overfills a level.** A call that would do so does not go through. -/
theorem LevelRoom.step (h : LevelRoom s.ctl) (hs : taskMachine.step s op = some s') :
    LevelRoom s'.ctl := by
  obtain ⟨hsched, hstep⟩ := h.sched.of_step hs
  refine ⟨hsched, ?_⟩
  cases hstep with
  | idle _ => exact h.room
  | alloc _ => exact h.room
  | touch _ => exact h.room
  | wake ht => exact joined_le h.room ((h.sched.fits_of_step hs (by simp [ht])).2 (.inl ht))
  | @move t level priority ht hlev =>
    refine joined_le (h.remove_le t) ?_
    simp only [askedTask, remove_level_ne (Ne.symm hlev)]
    exact (h.sched.fits_of_step hs (by simp [ht])).2 (.inr ⟨ht, hlev⟩)
  | leave _ _ => exact h.remove_le _
  | slumber _ _ => exact h.remove_le _
  | switch =>
    intro l
    rw [switched_running]
    exact h.room l

theorem LevelRoom.start : LevelRoom taskStart.ctl := by
  refine ⟨taskStart_sched, ?_⟩
  rw [taskStart_eq]
  decide

end Room

/-- **The `tasks` arrays are read and written within their bounds iff no task joins a full
level**, along every history of calls with levels that exist. -/
theorem levelIndices_iff (ops : List TaskOp) (hlevels : ∀ op ∈ ops, op.LevelExists) :
    taskMachine.AllSteps (fun s op => ∀ i ∈ op.indices s.ctl, i < osMprocessTasklevelTasksMax)
        taskStart ops ↔
      taskMachine.AllSteps (fun s op => op.Fits s.ctl) taskStart ops := by
  have hiff : ∀ (s : Cpu) (op : TaskOp), LevelRoom s.ctl → op.LevelExists →
      ((∀ i ∈ op.indices s.ctl, i < osMprocessTasklevelTasksMax) ↔ op.Fits s.ctl) :=
    fun s op h hop => h.indices_iff hop
  have hstep : ∀ (s : Cpu) (op : TaskOp) (s' : Cpu), LevelRoom s.ctl →
      taskMachine.step s op = some s' → LevelRoom s'.ctl := fun s op s' h hs => h.step hs
  exact Machine.AllSteps.iff_of_inv hiff hstep LevelRoom.start
    (Machine.AllSteps.of_mem fun op hop _ => hlevels op hop)

/-- The caller and one more task at level 0. -/
theorem levelIndices_iff_two_tasks : taskMachine.AllSteps
    (fun s op => ∀ i ∈ op.indices s.ctl, i < osMprocessTasklevelTasksMax) taskStart
    [.alloc, .run (some 2) 0 1, .autoswitch, .sleep (some 0)] :=
  (levelIndices_iff _ (by simp [TaskOp.LevelExists, osMprocessTasklevelsMax])).mpr
    (by rw [taskStart_eq]; decide +kernel)

/-! ## A level overflows -/

/-- `k` tasks are allocated one after the other and started at level 0. -/
def fillLevel : Nat → List TaskOp
  | 0 => []
  | k + 1 => fillLevel k ++ [.alloc, .run (some (Fin.ofNat _ (k + 2))) 0 1]

/-- Level 0 holds `k` tasks beside the first one, and the tasks behind them are free. -/
structure FilledLevel (c : TASKCTL) (k : Nat) : Prop where
  sched : Sched c
  running : (c.level 0).running = k + 1
  flags : ∀ x : TaskId, (c.tasks0 x).flags = if x.val < k + 2 then .running else .free

theorem FilledLevel.start : FilledLevel taskStart.ctl 0 := by
  refine ⟨taskStart_sched, ?_, ?_⟩ <;> rw [taskStart_eq]
  · rfl
  · intro x
    simp only [initTaskctl]
    split
    next h0 => rw [h0, if_pos (by decide)]
    next h0 =>
      split
      next h1 => rw [h1, if_pos (by decide)]
      next h1 =>
        have hx0 : x.val ≠ 0 := fun hx => h0 (Fin.ext hx)
        have hx1 : x.val ≠ 1 := fun hx => h1 (Fin.ext hx)
        rw [if_neg (by omega)]

/-- The next task is allocated. -/
structure NextAllocated (c : TASKCTL) (k : Nat) : Prop where
  sched : Sched c
  running : (c.level 0).running = k + 1
  flags : ∀ x : TaskId, (c.tasks0 x).flags =
    if x.val < k + 2 then .running else if x.val = k + 2 then .allocated else .free

theorem FilledLevel.alloc {s : Cpu} {k : Nat} (h : FilledLevel s.ctl k)
    (hk : k + 2 < osMprocessTaskMax) :
    ∃ s', taskMachine.step s .alloc = some s' ∧ NextAllocated s'.ctl k := by
  have hfree : (s.ctl.tasks0 ⟨k + 2, hk⟩).flags = .free := by
    rw [h.flags, if_neg (Nat.lt_irrefl _)]
  have hfound := mprocessTaskAlloc_first hfree fun x (hx : x.val < k + 2) => by
    simp [h.flags, hx]
  refine ⟨⟨_, s.tr⟩, by simp only [taskMachine, hfound]; rfl, ?_⟩
  refine ⟨h.sched.setTask rfl (by simp [hfree]), h.running, fun x => ?_⟩
  simp only [setTask_tasks0]
  by_cases hx : x = ⟨k + 2, hk⟩
  · simp [hx]
  · have hval : x.val ≠ k + 2 := fun hv => hx (Fin.ext hv)
    rw [if_neg hx, h.flags, if_neg hval]

/-- The task that was allocated gets the next place of level 0. -/
theorem NextAllocated.run {s : Cpu} {k : Nat} (h : NextAllocated s.ctl k)
    (hk : k + 1 < osMprocessTasklevelTasksMax) :
    ∃ s', taskMachine.step s (.run (some (Fin.ofNat _ (k + 2))) 0 1) = some s' ∧
      FilledLevel s'.ctl (k + 1) := by
  have hval : (Fin.ofNat osMprocessTaskMax (k + 2)).val = k + 2 := by
    refine Nat.mod_eq_of_lt ?_
    simp only [osMprocessTasklevelTasksMax, osMprocessTaskMax] at hk ⊢
    omega
  generalize Fin.ofNat osMprocessTaskMax (k + 2) = t at hval
  have ht : (s.ctl.tasks0 t).flags = .allocated := by simp [h.flags, hval]
  have hroom : (s.ctl.level (askedLevel s.ctl t 0)).running < osMprocessTasklevelTasksMax :=
    h.running.trans_lt hk
  have hsched : Sched (joined (s.ctl.setTask t (askedTask s.ctl t 0 1)) t) :=
    h.sched.join (by simp [ht]) rfl
  have hrun : mprocessTaskRun s.ctl (some t) 0 1 = _ :=
    (run_wake (by decide) h.sched ht).trans (if_pos hroom)
  refine ⟨⟨_, s.tr⟩, by simp only [taskMachine, hrun]; rfl, ?_⟩
  refine ⟨hsched.congr rfl rfl, ?_, fun x => ?_⟩
  · refine (congrArg TASKLEVEL.running (joined_level s.ctl t _ 0)).trans ?_
    exact congrArg (· + 1) h.running
  · refine (congrArg TASK.flags (joined_tasks0 s.ctl t x _)).trans ?_
    by_cases hx : x = t
    · simp [hx, hval]
    · have hne : x.val ≠ k + 2 := fun hv => hx (Fin.ext (hv.trans hval.symm))
      have hiff : x.val < k + 1 + 2 ↔ x.val < k + 2 := by omega
      simp only [if_neg hx, h.flags, if_neg hne, hiff]

theorem fillLevel_run {k : Nat} (hk : k < osMprocessTasklevelTasksMax) :
    ∃ s, taskMachine.run taskStart (fillLevel k) = some s ∧ FilledLevel s.ctl k := by
  induction k with
  | zero => exact ⟨taskStart, rfl, FilledLevel.start⟩
  | succ k ih =>
    obtain ⟨s, hrun, h⟩ := ih (Nat.lt_of_succ_lt hk)
    have hmax : k + 2 < osMprocessTaskMax := by
      simp only [osMprocessTasklevelTasksMax, osMprocessTaskMax] at hk ⊢
      omega
    obtain ⟨s₁, hs₁, h₁⟩ := h.alloc hmax
    obtain ⟨s₂, hs₂, h₂⟩ := h₁.run hk
    refine ⟨s₂, ?_, h₂⟩
    rw [fillLevel, Machine.run_append, hrun, Option.bind_some, Machine.run_cons hs₁,
      Machine.run_cons hs₂, Machine.run_nil]

/-- With 99 tasks beside the first one at level 0, the next one is stored at index 100. -/
theorem level_overflows : ∃ s, taskMachine.run taskStart (fillLevel 99 ++ [.alloc]) = some s ∧
    TaskOp.indices s.ctl (.run (some 101) 0 1) = [100] := by
  obtain ⟨s, hrun, h⟩ := fillLevel_run (k := 99) (by decide)
  obtain ⟨s₁, hs₁, h₁⟩ := h.alloc (by decide)
  refine ⟨s₁, ?_, ?_⟩
  · rw [Machine.run_append, hrun, Option.bind_some, Machine.run_cons hs₁, Machine.run_nil]
  · have ht : (s₁.ctl.tasks0 101).flags = .allocated := h₁.flags 101
    have hlevel : askedLevel s₁.ctl 101 0 = 0 := rfl
    have hjoin : Joins s₁.ctl 101 0 := .inl ht
    rw [TaskOp.indices, h₁.sched.runIndices_eq (by decide), if_neg (by simp [ht]), if_pos hjoin,
      hlevel, h₁.running]
    rfl

end UnagiOs
