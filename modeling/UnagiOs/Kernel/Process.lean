import Mathlib.Algebra.GroupWithZero.Nat
import Mathlib.Data.Fintype.Fin
import UnagiOs.Theory.Slots

/-!
# The scheduler (kernel/process.c)

Ten levels, each with an array of the tasks that run at it. `now_lv` and the
level's `now` index say which task is current; both lag behind what the other
functions do until the next switch.

A `TASK *` is an index into `tasks0`, and `none` is `NULL`. A write past the
arrays (a level that is full, or a level number that does not exist) answers
`none` for the whole call. A read past the slots in use gives what is stale
there, and past the array nothing. Of the TSS only the selector is kept.
-/

namespace UnagiOs

/-- `OS_MPROCESS_TASK_MAX`. -/
def osMprocessTaskMax : Nat := 1000

/-- `OS_MPROCESS_TASKLEVELS_MAX`. -/
def osMprocessTasklevelsMax : Nat := 10

/-- `OS_MPROCESS_TASKLEVEL_TASKS_MAX`. -/
def osMprocessTasklevelTasksMax : Nat := 100

/-- `OS_MPROCESS_TSS_GDT_INDEX_START`. -/
def osMprocessTssGdtIndexStart : Nat := 3

instance : NeZero osMprocessTaskMax := ⟨by decide⟩

instance : NeZero osMprocessTasklevelsMax := ⟨by decide⟩

/-- An index into `taskctl->tasks0`. -/
abbrev TaskId := Fin osMprocessTaskMax

/-- An index into `taskctl->level`. -/
abbrev LevelId := Fin osMprocessTasklevelsMax

/-- `MPROCESS_FLAGS_*`. -/
inductive TaskFlags where
  | free
  | allocated
  | running
deriving DecidableEq

/-- `TASK`, without its registers. -/
structure TASK where
  gdtSegmentSelector : Nat
  flags : TaskFlags
  priority : Nat
  level : LevelId
deriving DecidableEq

/-- `TASKLEVEL`. -/
structure TASKLEVEL where
  running : Nat
  now : Nat
  tasks : Nat → Option TaskId

/-- `TASKCTL`. -/
@[ext] structure TASKCTL where
  nowLv : LevelId
  lvChange : Bool
  level : LevelId → TASKLEVEL
  tasks0 : TaskId → TASK

/-- The entries `tasks[0..running)`. -/
def TASKLEVEL.entries (tl : TASKLEVEL) : List (Option TaskId) := slots tl.tasks tl.running

namespace TASKCTL

/-- Assign to a task. -/
def setTask (c : TASKCTL) (task : TaskId) (v : TASK) : TASKCTL :=
  { c with tasks0 := fun t => if t = task then v else c.tasks0 t }

/-- Assign to a level. -/
def setLevel (c : TASKCTL) (l : LevelId) (tl : TASKLEVEL) : TASKCTL :=
  { c with level := fun i => if i = l then tl else c.level i }

end TASKCTL

/-- `mprocess_task_alloc`: the new state and the task found. -/
def mprocessTaskAlloc (c : TASKCTL) : TASKCTL × Option TaskId :=
  match (List.finRange osMprocessTaskMax).find? fun t => (c.tasks0 t).flags = .free with
  | none => (c, none)
  | some t => (c.setTask t { c.tasks0 t with flags := .allocated, priority := 2 }, some t)

/-- `__mprocess_task_add`. -/
def mprocessTaskAdd (c : TASKCTL) (task : TaskId) : Option TASKCTL :=
  let l := (c.tasks0 task).level
  let tl := c.level l
  if some task ∈ tl.entries then some c
  else if tl.running < osMprocessTasklevelTasksMax then
    let c := c.setLevel l
      { tl with tasks := setSlot tl.tasks tl.running (some task), running := tl.running + 1 }
    some (c.setTask task { c.tasks0 task with flags := .running })
  else none

/-- `mprocess_task_remove` of a task that is in its level. The search ends at
`running` when there is none. -/
def mprocessTaskRemove (c : TASKCTL) (task : TaskId) : TASKCTL :=
  let l := (c.tasks0 task).level
  let tl := c.level l
  let i := tl.entries.idxOf (some task)
  let running := tl.running - 1
  let now := if i < tl.now then tl.now - 1 else tl.now
  let now := if now ≥ running then 0 else now
  let c := c.setTask task { c.tasks0 task with flags := .allocated }
  let c := c.setLevel l
    { running := running, now := now, tasks := shiftDown tl.tasks i (running - i) }
  if running = 0 then { c with lvChange := true } else c

/-- `__mprocess_task_update_currentlv`. -/
def mprocessTaskUpdateCurrentlv (c : TASKCTL) : TASKCTL :=
  let i := (List.finRange osMprocessTasklevelsMax).find? fun l => 0 < (c.level l).running
  { c with nowLv := i.getD ⟨osMprocessTasklevelsMax - 1, by decide⟩, lvChange := false }

/-- `mprocess_task_get_current`. -/
def mprocessTaskGetCurrent (c : TASKCTL) : Option TaskId :=
  let tl := c.level c.nowLv
  tl.tasks tl.now

/-- `mprocess_task_run`. -/
def mprocessTaskRun (c : TASKCTL) (task : Option TaskId) (level : Int) (priority : Nat) :
    Option TASKCTL :=
  match task with
  | none => some c
  | some t =>
    let level : Int := if level < 0 then ((c.tasks0 t).level : Nat) else level
    let c := if priority > 0 then c.setTask t { c.tasks0 t with priority := priority } else c
    -- change level while running: the flag goes back to allocated
    let c :=
      if (c.tasks0 t).flags = .running ∧ (((c.tasks0 t).level : Nat) : Int) ≠ level then
        mprocessTaskRemove c t
      else c
    let added : Option TASKCTL :=
      if (c.tasks0 t).flags = .allocated then
        if h : level.toNat < osMprocessTasklevelsMax then
          mprocessTaskAdd (c.setTask t { c.tasks0 t with level := ⟨level.toNat, h⟩ }) t
        else none
      else some c
    added.map fun c => { c with lvChange := true }

/-- What a function does with the CPU at its end. -/
inductive Jump where
  | stay
  /-- `_farjmp(0, cs)`. -/
  | farjmp (cs : Nat)
  /-- `_farjmp` with a selector read through a pointer that is no task. -/
  | wild
deriving DecidableEq

/-- `_farjmp(0, task->gdtSegmentSelector)`. -/
def farjmpTo (c : TASKCTL) : Option TaskId → Jump
  | none => .wild
  | some t => .farjmp (c.tasks0 t).gdtSegmentSelector

/-- The outcome of `mprocess_task_autoswitch`: the timeout is the one it sets
`tssTimer` to. -/
structure Autoswitch where
  ctl : TASKCTL
  taskNext : Option TaskId
  timeout : Option Nat
  jump : Jump

/-- `mprocess_task_autoswitch`. -/
def mprocessTaskAutoswitch (c : TASKCTL) : Autoswitch :=
  let tl := c.level c.nowLv
  let taskCurrent := tl.tasks tl.now
  let now := tl.now + 1
  let c := c.setLevel c.nowLv { tl with now := if now = tl.running then 0 else now }
  let c := if c.lvChange = true then mprocessTaskUpdateCurrentlv c else c
  let taskNext := mprocessTaskGetCurrent c
  { ctl := c
    taskNext := taskNext
    timeout := taskNext.map fun t => (c.tasks0 t).priority
    jump := if taskNext ≠ taskCurrent then farjmpTo c taskNext else .stay }

/-- `mprocess_task_sleep`. -/
def mprocessTaskSleep (c : TASKCTL) (task : Option TaskId) : TASKCTL × Jump :=
  match task with
  | none => (c, .stay)
  | some t =>
    if (c.tasks0 t).flags ≠ .running then (c, .stay)
    else
      let taskCurrent := mprocessTaskGetCurrent c
      let c := mprocessTaskRemove c t
      if some t = taskCurrent then
        -- the current task wishes to enter its slumber
        let c := mprocessTaskUpdateCurrentlv c
        (c, farjmpTo c (mprocessTaskGetCurrent c))
      else (c, .stay)

/-- The array of tasks that the loop in `mprocess_init` sets up in zeroed memory. -/
def mprocessInitTasks : TASKCTL where
  nowLv := 0
  lvChange := false
  level _ := ⟨0, 0, fun _ => none⟩
  tasks0 i := ⟨(osMprocessTssGdtIndexStart + i) * 8, .free, 0, 0⟩

/-- `mprocess_init`: the new state, and the first task, whose selector `_gdt_ltr` loads. -/
def mprocessInit : Option (TASKCTL × Option TaskId) := do
  let (c, task) := mprocessTaskAlloc mprocessInitTasks
  let t ← task
  let c := c.setTask t
    { c.tasks0 t with flags := .running, priority := 2, level := 0 }
  let c ← mprocessTaskAdd c t
  let c := mprocessTaskUpdateCurrentlv c
  let (c, taskIdle) := mprocessTaskAlloc c
  let i ← taskIdle
  let c := c.setTask i { c.tasks0 i with
    level := ⟨osMprocessTasklevelsMax - 1, by decide⟩, priority := 1 }
  let c ← mprocessTaskRun c taskIdle (-1) 0
  some (c, some t)

/-- The task whose TSS the GDT entry of a selector describes. -/
def gdtTask (cs : Nat) : Option TaskId :=
  if h : cs % 8 = 0 ∧ osMprocessTssGdtIndexStart ≤ cs / 8 ∧
      cs / 8 - osMprocessTssGdtIndexStart < osMprocessTaskMax then
    some ⟨cs / 8 - osMprocessTssGdtIndexStart, h.2.2⟩
  else none

end UnagiOs
