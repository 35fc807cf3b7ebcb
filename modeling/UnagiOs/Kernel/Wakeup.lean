import UnagiOs.Kernel.Executing
import UnagiOs.Kernel.Mprocessfifo

/-!
# No wakeup is lost

A task goes to sleep when its FIFOs are empty, and an interrupt that fills one of
them wakes the task. `noLostWakeup`: in no interleaving is a task off the run lists
while one of its FIFOs holds data.

Three things carry the proof.

- The run lists agree with the tasks (`Sched`), so the check for duplicates in
  `__mprocess_task_add` never takes a task that is asleep for one that is listed.
- The executing task is the current one (`Executing`): `console_main` asks
  `mprocess_task_get_current` for its own task, and only that task's loop puts it
  to sleep.
- The lists of the kernel never hold more than its four tasks, and no task is ever
  put on level 0 again (`Tidy`), so that every wakeup is a steady call.
-/

namespace UnagiOs

/-- No task is off the run lists while one of its FIFOs holds data. -/
def NoLostWakeup (k : Kernel) : Prop :=
  ∀ i f t, k.fifo i = some f → f.task = some t → 0 < fifo32StatusGetUsageB f.fifo32 →
    (k.cpu.ctl.tasks0 t).flags = .running

/-- The task that reads a FIFO. -/
def owner : FifoId → TaskId
  | .tss3 | .keymouse => 0
  | .tss4 => 2
  | .console => 3

theorem owner_ne_idle (i : FifoId) : owner i ≠ 1 := by
  cases i <;> decide

theorem owner_lt (i : FifoId) : (owner i).val < 4 := by
  cases i <;> decide

/-! ## The scheduler of the kernel -/

/-- The scheduler as the kernel uses it. -/
structure Tidy (c : TASKCTL) : Prop where
  few : ∀ t, (c.tasks0 t).flags = .running → t.val < 4
  alive : ∀ i, (c.tasks0 (owner i)).flags ≠ .free
  level : ∀ i, (c.tasks0 (owner i)).level ≠ 0
  idle : (c.tasks0 1).flags = .running
  now : ∀ l, l ≠ 0 → (c.level l).running = 0 → (c.level l).now = 0
  lv : (c.level c.nowLv).running = 0 → c.nowLv = 0

namespace Tidy

variable {c : TASKCTL} {cpu : Cpu} {t e : TaskId} {i : FifoId}

/-- The lists hold at most the four tasks of the kernel. -/
theorem room (h : Tidy c) (hs : Sched c) (l : LevelId) :
    (c.level l).running < osMprocessTasklevelTasksMax := by
  have hsub : (c.level l).entries ⊆ [some 0, some 1, some 2, some 3] := by
    intro x hx
    obtain ⟨t, rfl, ht, -⟩ := hs.exists_of_mem hx
    have hlt := h.few t ht
    have hcases : t = 0 ∨ t = 1 ∨ t = 2 ∨ t = 3 := by
      have h0 : (0 : TaskId).val = 0 := rfl
      have h1 : (1 : TaskId).val = 1 := rfl
      have h2 : (2 : TaskId).val = 2 := rfl
      have h3 : (3 : TaskId).val = 3 := rfl
      simp only [Fin.ext_iff, h0, h1, h2, h3]
      omega
    rcases hcases with rfl | rfl | rfl | rfl <;> simp
  have hle := ((hs.nodup l).subperm hsub).length_le
  rw [TASKLEVEL.entries, length_slots] at hle
  exact Nat.lt_of_le_of_lt hle (by decide)

/-- The record of one reader changes, and it is neither freed nor moved to level 0. -/
theorem of_reader (h : Tidy c) {c' : TASKCTL} {v : TASK}
    (htasks : ∀ x, c'.tasks0 x = if x = owner i then v else c.tasks0 x)
    (hflags : v.flags ≠ .free) (hlevel : v.level ≠ 0)
    (hnow : ∀ l, l ≠ 0 → (c'.level l).running = 0 → (c'.level l).now = 0)
    (hlv : (c'.level c'.nowLv).running = 0 → c'.nowLv = 0) : Tidy c' := by
  refine ⟨fun x hx => ?_, fun j => ?_, fun j => ?_, ?_, hnow, hlv⟩
  · rw [htasks] at hx
    split at hx
    next heq => exact heq ▸ owner_lt i
    next => exact h.few x hx
  · rw [htasks]
    split
    · exact hflags
    · exact h.alive j
  · rw [htasks]
    split
    · exact hlevel
    · exact h.level j
  · rw [htasks, if_neg (Ne.symm (owner_ne_idle i))]
    exact h.idle

/-- Waking the reader of a FIFO is a steady call. -/
theorem steady (h : Tidy cpu.ctl) (hex : Executing cpu e)
    (ht : (cpu.ctl.tasks0 (owner i)).flags = .allocated) :
    TaskOp.Steady cpu (.run (some (owner i)) (-1) 0) := by
  have hne : cpu.tr ≠ some (owner i) := by
    rw [hex.tr]
    exact fun heq => hex.ne (by simp [ht]) (Option.some.inj heq)
  intro _
  refine ⟨fun htr => absurd htr hne, fun hempty => ⟨h.now _ (h.level i) hempty, fun hlv => ?_⟩⟩
  exact absurd (hlv.trans (h.lv (hlv ▸ hempty))) (h.level i)

/-- The reader of a FIFO is woken. -/
theorem wake (h : Tidy cpu.ctl) (hex : Executing cpu e)
    (ht : (cpu.ctl.tasks0 (owner i)).flags = .allocated) :
    ∃ c', mprocessTaskRun cpu.ctl (some (owner i)) (-1) 0 = some c' ∧
      (∃ e, Executing ⟨c', cpu.tr⟩ e) ∧ Tidy c' ∧
      ∀ x, (c'.tasks0 x).flags =
        if x = owner i then .running else (cpu.ctl.tasks0 x).flags := by
  have hs := hex.inv.sched
  have hrun : mprocessTaskRun cpu.ctl (some (owner i)) (-1) 0 = some _ :=
    (run_wake (by decide) hs ht).trans (if_pos (h.room hs _))
  have hjoined : Sched (joined (cpu.ctl.setTask (owner i)
      (askedTask cpu.ctl (owner i) (-1) 0)) (owner i)) := hs.join (by simp [ht]) rfl
  have hflags : ∀ x, ((joined (cpu.ctl.setTask (owner i)
      (askedTask cpu.ctl (owner i) (-1) 0)) (owner i)).changed.tasks0 x).flags =
        if x = owner i then .running else (cpu.ctl.tasks0 x).flags := by
    intro x
    refine (congrArg TASK.flags (joined_tasks0 _ _ _ _)).trans ?_
    split <;> rfl
  refine ⟨_, hrun, hex.step (.wake ht) (hjoined.congr rfl rfl) (h.steady hex ht), ?_, hflags⟩
  refine h.of_reader (fun x => joined_tasks0 cpu.ctl (owner i) x _) (by simp) (h.level i)
    ?_ fun hempty => ?_
  · exact level_rule (fun l tl => l ≠ 0 → tl.running = 0 → tl.now = 0) (f := (·.push (owner i)))
      (joined_level _ _ _) h.now fun _ hempty => absurd hempty (Nat.succ_ne_zero _)
  · have hlevel := joined_level cpu.ctl (owner i) (askedTask cpu.ctl (owner i) (-1) 0)
      cpu.ctl.nowLv
    simp only [TASKCTL.changed, joined_nowLv, setTask_nowLv] at hempty ⊢
    rw [hlevel] at hempty
    split at hempty
    next => exact absurd hempty (Nat.succ_ne_zero _)
    next => exact h.lv hempty

/-- The executing reader of a FIFO goes to sleep. -/
theorem sleep (h : Tidy cpu.ctl) (hex : Executing cpu (owner i)) :
    ∃ cpu', taskMachine.step cpu (.sleep (some (owner i))) = some cpu' ∧
      (∃ e, Executing cpu' e) ∧ Tidy cpu'.ctl ∧
      ∀ x, (cpu'.ctl.tasks0 x).flags =
        if x = owner i then .allocated else (cpu.ctl.tasks0 x).flags := by
  obtain ⟨cpu', hstep, hsched, hs⟩ := hex.inv.sched.step_sleep (owner i)
  have hsteady : TaskOp.Steady cpu (.sleep (some (owner i))) :=
    fun _ _ => ⟨1, Ne.symm (owner_ne_idle i), h.idle⟩
  refine ⟨cpu', hstep, hex.step hs hsched hsteady, ?_⟩
  cases hs with
  | idle hidle => exact absurd hex.running hidle
  | leave _ hcur => exact absurd hex.current.slot hcur
  | slumber hrun hcur =>
    have htasks : ∀ x, ((slumbered cpu.ctl (owner i)).tasks0 x) = if x = owner i then
        { cpu.ctl.tasks0 (owner i) with flags := .allocated } else cpu.ctl.tasks0 x := by
      intro x
      show (mprocessTaskRemove cpu.ctl (owner i)).tasks0 x = _
      rw [remove_tasks0, setTask_tasks0]
    have hidle : ((slumbered cpu.ctl (owner i)).tasks0 1).flags = .running := by
      rw [htasks, if_neg (Ne.symm (owner_ne_idle i))]
      exact h.idle
    refine ⟨h.of_reader htasks (by simp) (h.level i) ?_ fun hempty => ?_, fun x => ?_⟩
    · -- a level that becomes empty gets its `now` back to 0
      refine level_rule (fun l tl => l ≠ 0 → tl.running = 0 → tl.now = 0)
        (f := (·.without (owner i))) (remove_level _ _) h.now fun _ hempty => ?_
      simp only [TASKLEVEL.without] at hempty ⊢
      rw [hempty, if_pos (Nat.zero_le _)]
    · have hpos := (update_lowest (hsched.running_pos hidle)).1
      exact absurd hempty (Nat.ne_of_gt hpos)
    · rw [htasks]
      split <;> rfl

/-- The timer interrupt switches tasks. -/
theorem tick (h : Tidy cpu.ctl) (hex : Executing cpu e) :
    ∃ cpu', taskMachine.step cpu .autoswitch = some cpu' ∧ (∃ e, Executing cpu' e) ∧
      Tidy cpu'.ctl ∧ cpu'.ctl.tasks0 = cpu.ctl.tasks0 := by
  obtain ⟨cpu', hstep, hsched, hs⟩ := hex.inv.sched.step_autoswitch
  refine ⟨cpu', hstep, hex.step hs hsched trivial, ?_⟩
  cases hs with
  | idle hidle => exact hidle.elim
  | switch =>
    have htasks := switched_tasks0 cpu.ctl
    refine ⟨⟨?_, ?_, ?_, ?_, ?_, fun hempty => ?_⟩, htasks⟩
    · simpa only [htasks] using h.few
    · simpa only [htasks] using h.alive
    · simpa only [htasks] using h.level
    · simpa only [htasks] using h.idle
    · exact level_rule (fun l tl => l ≠ 0 → tl.running = 0 → tl.now = 0)
        (switched_level cpu.ctl) h.now fun hl hempty => absurd (h.lv hempty) hl
    · have hlow := hex.inv.switched.lowest (switched_lvChange _)
        ⟨1, by rw [htasks]; exact h.idle⟩
      exact absurd hempty (Nat.ne_of_gt hlow.1)

end Tidy

/-! ## The FIFOs of the kernel -/

/-- **The invariant of the kernel.** -/
structure KernelInv (k : Kernel) : Prop where
  exec : ∃ e, Executing k.cpu e
  tidy : Tidy k.cpu.ctl
  task3 : k.task3 = some 0
  task4 : k.task4 = some 2
  taskConsole : k.taskConsole = some 3
  console : k.phaseConsole ≠ .entry → k.task = some 3
  owner : ∀ i f t, k.fifo i = some f → f.task = some t → t = owner i
  sane : ∀ i f, k.fifo i = some f → f.fifo32.Sane
  wakeup : NoLostWakeup k

namespace KernelInv

variable {k : Kernel} {i : FifoId} (h : KernelInv k)
include h

/-- A FIFO may change if it keeps its reader, who runs. -/
theorem setFifo (i : FifoId) {f : Option MPFIFO32} (hf : ∀ q, f = some q → q.fifo32.Sane ∧
      ∀ t, q.task = some t → t = UnagiOs.owner i ∧ (k.cpu.ctl.tasks0 t).flags = .running) :
    KernelInv (k.setFifo i f) := by
  refine ⟨h.exec, h.tidy, h.task3, h.task4, h.taskConsole, h.console, fun j q t hq ht => ?_,
    fun j q hq => ?_, fun j q t hq ht hpos => ?_⟩ <;> simp only [Kernel.setFifo] at hq
  all_goals split at hq
  next hj => exact hj ▸ ((hf q hq).2 t ht).1
  next => exact h.owner j q t hq ht
  next => exact (hf q hq).1
  next => exact h.sane j q hq
  next => exact ((hf q hq).2 t ht).2
  next => exact h.wakeup j q t hq ht hpos

/-- The scheduler may change if no reader with data is put to sleep. -/
theorem setCpu {cpu : Cpu} (hexec : ∃ e, Executing cpu e) (htidy : Tidy cpu.ctl)
    (hwakeup : NoLostWakeup { k with cpu := cpu }) : KernelInv { k with cpu := cpu } :=
  { h with exec := hexec, tidy := htidy, wakeup := hwakeup }

/-- `mpfifo32_enqueue` fills the FIFO and wakes its reader. -/
theorem enqueue (i : FifoId) (data : Int) : ∃ k', k.enqueue i data = some k' ∧ KernelInv k' := by
  cases hf : k.fifo i with
  | none =>
    refine ⟨_, by simp only [Kernel.enqueue, hf, mpfifo32Enqueue]; rfl, ?_⟩
    exact h.setFifo i fun _ hq => nomatch hq
  | some f =>
    have hsane := (h.sane i f hf).enqueue data
    cases ht : f.task with
    | none =>
      refine ⟨_, by simp only [Kernel.enqueue, hf, mpfifo32Enqueue, ht]; rfl, ?_⟩
      refine h.setFifo i fun q hq => ?_
      cases hq
      exact ⟨hsane, fun _ hqt => nomatch hqt⟩
    | some t =>
      obtain rfl := h.owner i f t hf ht
      -- in the state with the reader awake, the FIFO can be filled
      have hfill : ∀ {k' : Kernel}, KernelInv k' →
          (k'.cpu.ctl.tasks0 (UnagiOs.owner i)).flags = .running →
          KernelInv (k'.setFifo i
            (some ⟨(fifo32Enqueue f.fifo32 data).1, some (UnagiOs.owner i)⟩)) := by
        intro k' h' hrun
        refine h'.setFifo i fun q hq => ?_
        cases hq
        exact ⟨hsane, fun t hqt => Option.some.inj hqt ▸ ⟨rfl, hrun⟩⟩
      by_cases hasleep : (k.cpu.ctl.tasks0 (UnagiOs.owner i)).flags = .allocated
      · obtain ⟨e, hex⟩ := h.exec
        obtain ⟨c', hrun, hexec, htidy, hflags⟩ := h.tidy.wake hex hasleep
        refine ⟨_, by simp only [Kernel.enqueue, hf, mpfifo32Enqueue, ht, if_pos hasleep, hrun,
          Option.map_some]; rfl, ?_⟩
        refine hfill (h.setCpu hexec htidy fun j q t hq hqt hpos => ?_) ?_
        · have hold := h.wakeup j q t hq hqt hpos
          show (c'.tasks0 t).flags = .running
          rw [hflags]
          split
          · rfl
          · exact hold
        · exact (hflags _).trans (if_pos rfl)
      · have hrun : (k.cpu.ctl.tasks0 (UnagiOs.owner i)).flags = .running := by
          have halive := h.tidy.alive i
          cases hfl : (k.cpu.ctl.tasks0 (UnagiOs.owner i)).flags <;> simp_all
        exact ⟨_, by simp only [Kernel.enqueue, hf, mpfifo32Enqueue, ht, if_neg hasleep,
          Option.map_some]; rfl, hfill h hrun⟩

/-- The running reader dequeues. -/
theorem dequeue (i : FifoId) (hrun : (k.cpu.ctl.tasks0 (UnagiOs.owner i)).flags = .running) :
    ∃ k' data, k.dequeue i = some (k', data) ∧ KernelInv k' ∧ k'.cpu = k.cpu := by
  unfold Kernel.dequeue mpfifo32Dequeue
  cases hf : k.fifo i with
  | none =>
    exact ⟨_, _, rfl, h.setFifo i (fun _ hq => nomatch hq), rfl⟩
  | some f =>
    obtain ⟨f', data, hdeq, hsane⟩ := (h.sane i f hf).dequeue
    simp only [hdeq, Option.map_some]
    refine ⟨_, _, rfl, h.setFifo i fun q hq => ?_, rfl⟩
    cases hq
    exact ⟨hsane, fun t hqt => ⟨h.owner i f t hf hqt, h.owner i f t hf hqt ▸ hrun⟩⟩

/-- The executing reader goes to sleep when its FIFOs are empty. -/
theorem sleep (i : FifoId) (htr : k.cpu.tr = some (UnagiOs.owner i))
    (hempty : ∀ j, UnagiOs.owner j = UnagiOs.owner i → k.usage j ≤ 0) :
    ∃ k', k.sleep (some (UnagiOs.owner i)) = some k' ∧ KernelInv k' := by
  obtain ⟨e, hex⟩ := h.exec
  have he : e = UnagiOs.owner i := Option.some.inj (hex.tr.symm.trans htr)
  obtain ⟨cpu', hstep, hexec, htidy, hflags⟩ := h.tidy.sleep (he ▸ hex)
  refine ⟨_, by rw [Kernel.sleep, hstep]; rfl, h.setCpu hexec htidy fun j f t hf ht hpos => ?_⟩
  have hj := h.owner j f t hf ht
  have hne : t ≠ UnagiOs.owner i := by
    intro heq
    have hle := hempty j (hj.symm.trans heq)
    simp only [Kernel.usage, mpfifo32StatusGetUsageB, show k.fifo j = some f from hf] at hle
    omega
  show (cpu'.ctl.tasks0 t).flags = .running
  rw [hflags, if_neg hne]
  exact h.wakeup j f t hf ht hpos

/-- The executing task runs. -/
theorem running {t : TaskId} (htr : k.cpu.tr = some t) : (k.cpu.ctl.tasks0 t).flags = .running := by
  obtain ⟨e, hex⟩ := h.exec
  exact Option.some.inj (hex.tr.symm.trans htr) ▸ hex.running

/-- `mpfifo32_init` by the executing reader. -/
theorem init (i : FifoId) (size : Nat) (htr : k.cpu.tr = some (UnagiOs.owner i)) :
    KernelInv (k.setFifo i
      (mpfifo32Init (k.fifo i) (some fun _ => 0) size (some (UnagiOs.owner i)))) := by
  refine h.setFifo i fun q hq => ?_
  cases hf : k.fifo i with
  | none => simp [hf, mpfifo32Init] at hq
  | some f =>
    simp only [hf, mpfifo32Init, Option.some.injEq] at hq
    subst hq
    exact ⟨(h.sane i f hf).init _ _, fun t hqt => Option.some.inj hqt ▸ ⟨rfl, h.running htr⟩⟩

/-- The end of a section of `eventloop`. -/
theorem keymouseSection (focus : Bool) (htr : k.cpu.tr = some 0) :
    ∃ k', k.keymouseSection focus = some k' ∧ KernelInv k' := by
  obtain ⟨k₁, data, hdeq, h₁, -⟩ := h.dequeue .keymouse (h.running htr)
  unfold Kernel.keymouseSection
  simp only [hdeq]
  split
  · exact h₁.enqueue .console data
  · exact ⟨k₁, rfl, h₁⟩

/-- A section of `eventloop`. -/
theorem eventloopSection (focus : Bool) (htr : k.cpu.tr = some 0) :
    ∃ k', k.eventloopSection focus = some k' ∧ KernelInv k' := by
  unfold Kernel.eventloopSection
  cases hphase : k.phase3 with
  | entry =>
    refine ⟨_, rfl, ?_⟩
    have h' : KernelInv (k.setFifo .keymouse
        ((k.fifo .keymouse).map fun f => { f with task := k.task3 })) := by
      rw [h.task3]
      refine h.setFifo .keymouse fun q hq => ?_
      obtain ⟨f, hf, rfl⟩ := Option.map_eq_some_iff.mp hq
      exact ⟨h.sane .keymouse f hf, fun t hqt => Option.some.inj hqt ▸ ⟨rfl, h.running htr⟩⟩
    exact { h' with }
  | setup =>
    refine ⟨_, rfl, ?_⟩
    have h' := h.init .tss3 4096 htr
    rw [h.task3]
    exact { h' with }
  | loop =>
    simp only
    split
    next hempty =>
      rw [h.task3]
      refine h.sleep .tss3 htr fun j hj => ?_
      cases j with
      | tss3 => exact hempty.1.le
      | keymouse => exact hempty.2
      | tss4 | console => exact absurd hj (by decide)
    next =>
      split
      next =>
        split
        · exact ⟨k, rfl, h⟩
        · exact h.keymouseSection focus htr
      next =>
        obtain ⟨k₁, data, hdeq, h₁, hcpu⟩ := h.dequeue .tss3 (h.running htr)
        simp only [hdeq]
        split
        · exact ⟨k₁, rfl, h₁⟩
        · split
          · exact ⟨k₁, rfl, h₁⟩
          · exact h₁.keymouseSection focus (hcpu ▸ htr)

/-- A section of `__tss4_main`. -/
theorem tss4Section (htr : k.cpu.tr = some 2) : ∃ k', k.tss4Section = some k' ∧ KernelInv k' := by
  have hinit : ∃ k', some { k.setFifo .tss4 (mpfifo32Init (k.fifo .tss4) (some fun _ => 0) 4096
      k.task4) with phase4 := .loop } = some k' ∧ KernelInv k' := by
    refine ⟨_, rfl, ?_⟩
    have h' := h.init .tss4 4096 htr
    rw [h.task4]
    exact { h' with }
  unfold Kernel.tss4Section
  cases hphase : k.phase4 with
  | entry => exact hinit
  | setup => exact hinit
  | loop =>
    simp only
    split
    next hempty =>
      rw [h.task4]
      refine h.sleep .tss4 htr fun j hj => ?_
      cases j with
      | tss4 => exact hempty
      | tss3 | keymouse | console => exact absurd hj (by decide)
    next =>
      obtain ⟨k₁, data, hdeq, h₁, -⟩ := h.dequeue .tss4 (h.running htr)
      exact ⟨k₁, by rw [hdeq]; rfl, h₁⟩

/-- A section of `console_main`: the task it asks for on entry is its own. -/
theorem consoleSection (htr : k.cpu.tr = some 3) :
    ∃ k', k.consoleSection = some k' ∧ KernelInv k' := by
  unfold Kernel.consoleSection
  cases hphase : k.phaseConsole with
  | entry =>
    refine ⟨_, rfl, ?_⟩
    have h' : KernelInv (k.setFifo .console (some mpfifo32Zero)) := by
      refine h.setFifo .console fun q hq => ?_
      cases hq
      exact ⟨FIFO32.Sane.zero, fun _ hqt => nomatch hqt⟩
    obtain ⟨e, hex⟩ := h.exec
    have hcurrent : mprocessTaskGetCurrent k.cpu.ctl = some 3 := by
      rw [hex.current.slot, ← hex.tr, htr]
    exact { h' with console := fun _ => hcurrent }
  | setup =>
    refine ⟨_, rfl, ?_⟩
    have htask := h.console (by rw [hphase]; decide)
    have h' := h.init .console 512 htr
    rw [htask]
    exact { h' with console := fun _ => htask }
  | loop =>
    have htask := h.console (by rw [hphase]; decide)
    simp only
    split
    next hempty =>
      rw [htask]
      refine h.sleep .console htr fun j hj => ?_
      cases j with
      | console => exact hempty.le
      | tss3 | keymouse | tss4 => exact absurd hj (by decide)
    next =>
      obtain ⟨k₁, data, hdeq, h₁, -⟩ := h.dequeue .console (h.running htr)
      exact ⟨k₁, by rw [hdeq]; rfl, h₁⟩

/-- **Every step of the kernel** goes through and loses no wakeup. -/
theorem step (op : KernelOp) : ∃ k', kernelMachine.step k op = some k' ∧ KernelInv k' := by
  cases op with
  | irq i data => exact h.enqueue i data
  | tick =>
    obtain ⟨e, hex⟩ := h.exec
    obtain ⟨cpu', hstep, hexec, htidy, htasks⟩ := h.tidy.tick hex
    refine ⟨_, by simp only [kernelMachine, hstep]; rfl, h.setCpu hexec htidy ?_⟩
    intro j f t hf ht hpos
    show (cpu'.ctl.tasks0 t).flags = .running
    rw [htasks]
    exact h.wakeup j f t hf ht hpos
  | execute focus =>
    simp only [kernelMachine, Kernel.execute, h.task3, h.task4, h.taskConsole]
    split
    next => exact ⟨k, rfl, h⟩
    next =>
      split
      next htr => exact h.eventloopSection focus htr
      next =>
        split
        next htr => exact h.tss4Section htr
        next =>
          split
          next htr => exact h.consoleSection htr
          next => exact ⟨k, rfl, h⟩

end KernelInv

/-! ## The start of the kernel -/

/-- The calls that `kernel_main` makes to start its tasks. -/
def kernelMainOps : List TaskOp :=
  [.run (some 0) 1 2, .alloc, .run (some 2) 2 1, .alloc, .run (some 3) 2 2]

/-- `mprocess_task_alloc` hands out tasks 2 and 3. -/
theorem kernelMain_tasks :
    kernelMain.map (fun p => p.2) = some (some 0, some 2, some 3) := by
  decide +kernel

/-- What `kernel_main` does with its tasks is a run of the scheduler. -/
theorem kernelMain_run : kernelMain.map (fun p => (⟨p.1, some 0⟩ : Cpu)) =
    taskMachine.run taskStart kernelMainOps := by
  have htasks := kernelMain_tasks
  unfold kernelMain at htasks ⊢
  rw [mprocessInit_eq] at htasks ⊢
  rw [taskStart_eq]
  simp only [Option.bind_eq_bind, Option.bind_some] at htasks ⊢
  cases h₁ : mprocessTaskRun initTaskctl (some 0) 1 2 with
  | none => simp [h₁] at htasks
  | some c₁ =>
    simp only [h₁, Option.bind_some] at htasks ⊢
    cases h₂ : mprocessTaskRun (mprocessTaskAlloc c₁).1 (mprocessTaskAlloc c₁).2 2 1 with
    | none => simp [h₂] at htasks
    | some c₂ =>
      simp only [h₂, Option.bind_some] at htasks ⊢
      cases h₃ : mprocessTaskRun (mprocessTaskAlloc c₂).1 (mprocessTaskAlloc c₂).2 2 2 with
      | none => simp [h₃] at htasks
      | some c₃ =>
        simp only [h₃, Option.bind_some, Option.map_some, Option.some.injEq, Prod.mk.injEq,
          true_and] at htasks ⊢
        rw [htasks.1] at h₂
        rw [htasks.2] at h₃
        simp only [kernelMainOps, Machine.run, taskMachine, h₁, h₂, h₃, Option.map_some,
          Option.bind_some]

/-- What `kernel_main` leaves behind: every task of the kernel runs, none of them at
level 0, which has been emptied and is still the current level. -/
def StartedTasks (c : TASKCTL) : Prop :=
  c.nowLv = 0 ∧ (∀ l, (c.level l).now = 0) ∧
    (∀ l, ∀ x ∈ (c.level l).entries, x ∈ [some 0, some 1, some 2, some 3]) ∧
    (∀ t ∈ [0, 1, 2, 3], (c.tasks0 t).flags = .running) ∧
    (∀ t ∈ [0, 2, 3], (c.tasks0 t).level ≠ 0)

instance (c : TASKCTL) : Decidable (StartedTasks c) :=
  inferInstanceAs (Decidable (_ ∧ _ ∧ _))

theorem kernelMainOps_started :
    (taskMachine.run taskStart kernelMainOps).all (fun s => decide (StartedTasks s.ctl)) =
      true := by
  rw [taskStart_eq]
  decide +kernel

theorem StartedTasks.tidy {c : TASKCTL} (h : StartedTasks c) (hs : Sched c) : Tidy c := by
  obtain ⟨hlv, hnow, hsub, hrun, hlevel⟩ := h
  refine ⟨fun t ht => ?_, fun i => ?_, fun i => ?_, hrun 1 (by decide), fun l _ _ => hnow l,
    fun _ => hlv⟩
  · have hmem := hsub _ _ (hs.mem_level ht)
    simp only [List.mem_cons, Option.some.injEq, List.not_mem_nil, or_false] at hmem
    rcases hmem with rfl | rfl | rfl | rfl <;> decide
  · rw [hrun (owner i) (by cases i <;> decide)]
    decide
  · exact hlevel (owner i) (by cases i <;> decide)

/-- The keyboard FIFO of the start has a buffer. -/
theorem keymousefifo_sane (early : List Int) : (keymousefifo early).fifo32.Sane := by
  have hfold : ∀ (early : List Int) (f : FIFO32), f.Sane →
      (early.foldl (fun f data => (fifo32Enqueue f data).1) f).Sane := by
    intro early
    induction early with
    | nil => exact fun f hf => hf
    | cons data early ih => exact fun f hf => ih _ (hf.enqueue data)
  exact hfold early _ (FIFO32.Sane.zero.init _ _)

/-- The kernel starts, whatever came before its FIFO had an owner. -/
theorem KernelInv.start (early : List Int) : ∃ k, kernelStart early = some k ∧ KernelInv k := by
  have hstep : ∀ (s : Cpu) (op : TaskOp), (∃ t, Executing s t) → op.Fits s.ctl ∧ op.Steady s →
      ∃ s', taskMachine.step s op = some s' ∧ ∃ t, Executing s' t := by
    rintro s op ⟨t, h⟩ ⟨hfits, hsteady⟩
    obtain ⟨s', hs', hsched, hop⟩ := h.inv.sched.step hfits
    exact ⟨s', hs', h.step hop hsched hsteady⟩
  have hsteady : taskMachine.AllSteps (fun s op => op.Fits s.ctl ∧ op.Steady s) taskStart
      kernelMainOps := by
    rw [taskStart_eq]
    decide +kernel
  obtain ⟨s, hrun, hex⟩ := Machine.run_of_inv hstep ⟨0, Executing.start⟩ hsteady
  have hstarted : StartedTasks s.ctl := by
    have hall := kernelMainOps_started
    rw [hrun] at hall
    exact of_decide_eq_true hall
  have htasks := kernelMain_tasks
  have hmain := kernelMain_run
  rw [hrun] at hmain
  obtain ⟨⟨c, t3, t4, t5⟩, hp, rfl⟩ := Option.map_eq_some_iff.mp hmain
  rw [hp] at htasks
  cases htasks
  obtain ⟨e, hex⟩ := hex
  refine ⟨_, by rw [kernelStart, hp]; rfl, ⟨e, hex⟩, hstarted.tidy hex.inv.sched, rfl, rfl, rfl,
    fun hphase => absurd rfl hphase, fun i f t hf ht => ?_, fun i f hf => ?_,
    fun i f t hf ht => ?_⟩
  · cases i <;> cases hf <;> cases ht
  · cases i <;> cases hf
    · exact FIFO32.Sane.zero
    · exact keymousefifo_sane early
    · exact FIFO32.Sane.zero
  · cases i <;> cases hf <;> cases ht

/-- **No wakeup is lost.** From the start of the kernel's tasks on, in every
interleaving of interrupts, task switches and the sections of the tasks, no task is
off the run lists while one of the FIFOs that name it holds data. -/
theorem noLostWakeup (early : List Int) (ops : List KernelOp) :
    ∃ k₀ k, kernelStart early = some k₀ ∧ kernelMachine.run k₀ ops = some k ∧ NoLostWakeup k := by
  obtain ⟨k₀, hk₀, h₀⟩ := KernelInv.start early
  obtain ⟨k, hrun, h⟩ := Machine.run_of_inv (fun k op (h : KernelInv k) (_ : True) => h.step op) h₀
    (Machine.AllSteps.of_mem fun _ _ _ => trivial)
  exact ⟨k₀, k, hk₀, hrun, h.wakeup⟩

end UnagiOs
