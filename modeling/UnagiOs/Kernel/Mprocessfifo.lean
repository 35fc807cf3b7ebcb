import UnagiOs.Util.Fifo
import UnagiOs.Kernel.SchedRun

/-!
# FIFOs with a task (kernel/mprocessfifo.c) and the task loops (kernel.c)

`mpfifo32_enqueue` wakes the task of the FIFO after it has enqueued. The tasks of
the kernel run endless loops, each a sequence of sections with interrupts off: look
at the FIFOs, then either go to sleep or dequeue. The kernel machine interleaves

- `irq`: an interrupt handler enqueues to one of the FIFOs,
- `tick`: the timer interrupt switches tasks,
- `execute`: the executing task runs its next section, from the entry of its
  function on.

What a section does besides, with timers, sheets and text boxes, is left out. The keyboard
focus, which decides whether a key goes to the console, is an input of the section.
-/

namespace UnagiOs

/-- `DEV_FIFO_KBD_START`. -/
def devFifoKbdStart : Int := 256

/-- `DEV_FIFO_KBD_END`. -/
def devFifoKbdEnd : Int := 512

/-- `MPFIFO32`. -/
structure MPFIFO32 where
  fifo32 : FIFO32
  task : Option TaskId

/-- A zeroed `MPFIFO32`. -/
def mpfifo32Zero : MPFIFO32 := ⟨fifo32Zero, none⟩

/-- `mpfifo32_init`. -/
def mpfifo32Init (f : Option MPFIFO32) (buf : Option (Nat → Int)) (size : Nat)
    (task : Option TaskId) : Option MPFIFO32 :=
  match f, buf with
  | none, _ => none
  | some f, none => some f
  | some f, some b => some { fifo32 := fifo32Init f.fifo32 (some b) size, task := task }

/-- `mpfifo32_enqueue`: the scheduler, the FIFO and the result. -/
def mpfifo32Enqueue (c : TASKCTL) (f : Option MPFIFO32) (data : Int) :
    Option (TASKCTL × Option MPFIFO32 × Int) :=
  match f with
  | none => some (c, none, -eio)
  | some f =>
    let (fifo32, res) := fifo32Enqueue f.fifo32 data
    let f := { f with fifo32 := fifo32 }
    match f.task with
    | none => some (c, some f, res)
    | some t =>
      if (c.tasks0 t).flags = .allocated then
        -- asleep, awaiting awakening; the priority stays unchanged
        (mprocessTaskRun c (some t) (-1) 0).map fun c => (c, some f, res)
      else some (c, some f, res)

/-- `mpfifo32_dequeue`. -/
def mpfifo32Dequeue (f : Option MPFIFO32) : Option (Option MPFIFO32 × Int) :=
  match f with
  | none => some (none, -eio)
  | some f => (fifo32Dequeue f.fifo32).map fun (fifo32, data) =>
      (some { f with fifo32 := fifo32 }, data)

/-- `mpfifo32_status_getUsageB`. -/
def mpfifo32StatusGetUsageB (f : Option MPFIFO32) : Int :=
  match f with
  | none => -eio
  | some f => fifo32StatusGetUsageB f.fifo32

/-! ## The kernel -/

/-- The FIFOs of the kernel. -/
inductive FifoId where
  | tss3
  | keymouse
  | tss4
  /-- `mpfifo32Console`, which is `NULL` until `console_main` allocates it. -/
  | console
deriving DecidableEq

/-- How far the function of a task has got. -/
inductive Phase where
  | entry
  | setup
  | loop
deriving DecidableEq

/-- The tasks, the FIFOs and the task functions of the kernel. -/
structure Kernel where
  cpu : Cpu
  task3 : Option TaskId
  task4 : Option TaskId
  taskConsole : Option TaskId
  fifo : FifoId → Option MPFIFO32
  /-- `eventloop`. -/
  phase3 : Phase
  /-- `__tss4_main`. -/
  phase4 : Phase
  /-- `console_main`, and its local `task`. -/
  phaseConsole : Phase
  task : Option TaskId

namespace Kernel

/-- Assign to a FIFO. -/
def setFifo (k : Kernel) (i : FifoId) (f : Option MPFIFO32) : Kernel :=
  { k with fifo := fun j => if j = i then f else k.fifo j }

/-- `mpfifo32_status_getUsageB` of a FIFO. -/
def usage (k : Kernel) (i : FifoId) : Int := mpfifo32StatusGetUsageB (k.fifo i)

/-- `mpfifo32_enqueue` to a FIFO. -/
def enqueue (k : Kernel) (i : FifoId) (data : Int) : Option Kernel :=
  (mpfifo32Enqueue k.cpu.ctl (k.fifo i) data).map fun (c, f, _) =>
    { k.setFifo i f with cpu := { k.cpu with ctl := c } }

/-- `mpfifo32_dequeue` from a FIFO. -/
def dequeue (k : Kernel) (i : FifoId) : Option (Kernel × Int) :=
  (mpfifo32Dequeue (k.fifo i)).map fun (f, data) => (k.setFifo i f, data)

/-- `mprocess_task_sleep`. -/
def sleep (k : Kernel) (task : Option TaskId) : Option Kernel :=
  (taskMachine.step k.cpu (.sleep task)).map fun cpu => { k with cpu := cpu }

/-- The key or mouse datum that `eventloop` takes last: a key goes to the console if
that has the focus. -/
def keymouseSection (k : Kernel) (focus : Bool) : Option Kernel :=
  match k.dequeue .keymouse with
  | none => none
  | some (k, data) =>
    if devFifoKbdStart ≤ data ∧ data < devFifoKbdEnd ∧ focus = true then k.enqueue .console data
    else some k

/-- A section of `eventloop`. -/
def eventloopSection (k : Kernel) (focus : Bool) : Option Kernel :=
  match k.phase3 with
  | .entry =>
    let f := (k.fifo .keymouse).map fun f => { f with task := k.task3 }
    some { k.setFifo .keymouse f with phase3 := .setup }
  | .setup =>
    let f := mpfifo32Init (k.fifo .tss3) (some fun _ => 0) 4096 k.task3
    some { k.setFifo .tss3 f with phase3 := .loop }
  | .loop =>
    let usedBytes := k.usage .keymouse
    if k.usage .tss3 = 0 ∧ usedBytes ≤ 0 then k.sleep k.task3
    else if k.usage .tss3 = 0 then
      if usedBytes = 0 then some k else k.keymouseSection focus
    else
      match k.dequeue .tss3 with
      | none => none
      | some (k, data) =>
        if data < 0 then some k
        else if usedBytes = 0 then some k
        else k.keymouseSection focus

/-- A section of `__tss4_main`. -/
def tss4Section (k : Kernel) : Option Kernel :=
  match k.phase4 with
  | .entry | .setup =>
    let f := mpfifo32Init (k.fifo .tss4) (some fun _ => 0) 4096 k.task4
    some { k.setFifo .tss4 f with phase4 := .loop }
  | .loop =>
    if k.usage .tss4 ≤ 0 then k.sleep k.task4
    else (k.dequeue .tss4).map fun (k, _) => k

/-- A section of `console_main`. -/
def consoleSection (k : Kernel) : Option Kernel :=
  match k.phaseConsole with
  | .entry =>
    some { k.setFifo .console (some mpfifo32Zero) with
      task := mprocessTaskGetCurrent k.cpu.ctl, phaseConsole := .setup }
  | .setup =>
    let f := mpfifo32Init (k.fifo .console) (some fun _ => 0) 512 k.task
    some { k.setFifo .console f with phaseConsole := .loop }
  | .loop =>
    if k.usage .console = 0 then k.sleep k.task
    else (k.dequeue .console).map fun (k, _) => k

/-- The executing task runs its next section; the idle task has none. -/
def execute (k : Kernel) (focus : Bool) : Option Kernel :=
  if k.cpu.tr = none then some k
  else if k.cpu.tr = k.task3 then k.eventloopSection focus
  else if k.cpu.tr = k.task4 then k.tss4Section
  else if k.cpu.tr = k.taskConsole then k.consoleSection
  else some k

end Kernel

/-- What happens next. -/
inductive KernelOp where
  | irq (f : FifoId) (data : Int)
  | tick
  | execute (focus : Bool)

/-- The kernel as a machine. -/
def kernelMachine : Machine Kernel KernelOp where
  step k
    | .irq f data => k.enqueue f data
    | .tick => (taskMachine.step k.cpu .autoswitch).map fun cpu => { k with cpu := cpu }
    | .execute focus => k.execute focus

/-- The tasks that `kernel_main` starts: the scheduler, `task3`, `task4` and `taskConsole`. -/
def kernelMain :
    Option (TASKCTL × Option TaskId × Option TaskId × Option TaskId) := do
  let (c, task3) ← mprocessInit
  let c ← mprocessTaskRun c task3 1 2
  let (c, task4) := mprocessTaskAlloc c
  let c ← mprocessTaskRun c task4 2 1
  let (c, taskConsole) := mprocessTaskAlloc c
  let c ← mprocessTaskRun c taskConsole 2 2
  some (c, task3, task4, taskConsole)

/-- The keyboard FIFO after `idt_init` and the data that arrives before the tasks start. -/
def keymousefifo (early : List Int) : MPFIFO32 where
  fifo32 := early.foldl (fun f data => (fifo32Enqueue f data).1)
    (fifo32Init fifo32Zero (some fun _ => 0) 512)
  task := none

/-- The kernel when it enters `eventloop`. -/
def kernelStart (early : List Int) : Option Kernel :=
  kernelMain.map fun (c, task3, task4, taskConsole) =>
    { cpu := ⟨c, task3⟩
      task3 := task3
      task4 := task4
      taskConsole := taskConsole
      fifo := fun
        | .tss3 | .tss4 => some mpfifo32Zero
        | .keymouse => some (keymousefifo early)
        | .console => none
      phase3 := .entry
      phase4 := .entry
      phaseConsole := .entry
      task := none }

end UnagiOs
