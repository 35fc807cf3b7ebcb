import UnagiOs.Util.Dlist
import UnagiOs.Theory.Words

/-!
# Timers (pic/timer.c)

All timers live in one array. A timer that is free or counting down is on the
ring headed by the guard node `listtail`, in the order of `target_tick`; an
allocated timer is off it. `next_alarm_on_tick` lets the interrupt handler
return early.

A `TIMER *` is an index into the array, or `none` for `NULL`, and a `MPFIFO32 *`
is an opaque name. The handler's calls of `mpfifo32_enqueue` are returned as a
list of firings. Where it ends in `mprocess_task_autoswitch` it returns that
flag instead: the switch re-arms `tssTimer` through `timer_settimer`, a call of
its own in the histories of this module. Loops over the ring get as much fuel as
there are timers.
-/

namespace UnagiOs

/-- `OS_MAX_TIMER`. -/
def osMaxTimer : Nat := 500

instance : NeZero osMaxTimer := ⟨by decide⟩

/-- `UINT32_MAX`. -/
def uint32Max : Nat := 2 ^ 32 - 1

/-- An index into `timerctl.timer`. -/
abbrev TimerId := Fin osMaxTimer

/-- `TIMER_FLAGS_*`. -/
inductive TimerFlags where
  | free
  | allocated
  | oncountdown
  | guardnode
deriving DecidableEq

/-- `TIMER`. -/
structure TIMER where
  timerDL : DLIST TimerId
  targetTick : Nat
  flags : TimerFlags
  fifo : Option Nat
  data : UInt8
deriving DecidableEq

/-- `TIMERCTL`. -/
structure TIMERCTL where
  tick : Nat
  listtail : TimerId
  nextAlarmOnTick : Nat
  timer : TimerId → TIMER

namespace TIMERCTL

/-- Assign to a timer. -/
def set (c : TIMERCTL) (t : TimerId) (v : TIMER) : TIMERCTL :=
  { c with timer := fun i => if i = t then v else c.timer i }

end TIMERCTL

/-- The `timerDL` nodes of the timers. -/
def timerLinks : Links TIMERCTL TimerId where
  next c t := (c.timer t).timerDL.next
  prev c t := (c.timer t).timerDL.prev
  setNext c t v := c.set t { c.timer t with timerDL := { (c.timer t).timerDL with next := v } }
  setPrev c t v := c.set t { c.timer t with timerDL := { (c.timer t).timerDL with prev := v } }

/-- `__timer_set_default_params`. -/
def timerSetDefaultParams (c : TIMERCTL) (t : TimerId) : TIMERCTL :=
  let c := c.set t
    { c.timer t with flags := .free, data := 0, fifo := none, targetTick := uint32Max }
  dlistInit timerLinks c t

/-- The last timer of the array, which serves as the guard node. -/
def timerTail : TimerId := ⟨osMaxTimer - 1, by decide⟩

/-- The first `i` rounds of the loop in `timerctl_init`. -/
def timerctlInitLoop (c : TIMERCTL) : Nat → TIMERCTL
  | 0 => c
  | i + 1 =>
    let c := timerctlInitLoop c i
    let t := Fin.ofNat osMaxTimer i
    let prev := if i = 0 then timerTail else Fin.ofNat osMaxTimer (i - 1)
    let c := timerSetDefaultParams c t
    dlistInsertAfter timerLinks c prev t

/-- `timerctl_init`. -/
def timerctlInit (c : TIMERCTL) : TIMERCTL :=
  let c := { c with tick := 0, nextAlarmOnTick := uint32Max, listtail := timerTail }
  let c := timerSetDefaultParams c timerTail
  let c := c.set timerTail { c.timer timerTail with flags := .guardnode }
  timerctlInitLoop c (osMaxTimer - 1)

/-- `timer_alloc_customfifo`: the new state and the timer found. -/
def timerAllocCustomfifo (c : TIMERCTL) (fifo32 : Option Nat) : TIMERCTL × Option TimerId :=
  match (List.finRange osMaxTimer).find? fun t => (c.timer t).flags = .free with
  | none => (c, none)
  | some t =>
    let c := c.set t { c.timer t with flags := .allocated, fifo := fifo32 }
    (dlistRemove timerLinks c t, some t)

/-- The search loop that both branches of `timer_settimer` end in: insert the
timer before the first one, after `head`, that is not due earlier. -/
def timerInsertSorted (c : TIMERCTL) (head timer : TimerId) : Option TIMERCTL :=
  match listForEachEntry timerLinks c head
      (fun pos => decide ((c.timer timer).targetTick ≤ (c.timer pos).targetTick)) osMaxTimer
      (timerLinks.next c head) with
  | none => none
  | some none => some c
  | some (some pos) => some (dlistInsertBefore timerLinks c pos timer)

/-- Set parameters and update `next_alarm_on_tick`, as both branches of
`timer_settimer` do. -/
def timerArm (c : TIMERCTL) (timer : TimerId) (timeout : Nat) (data : UInt8) : TIMERCTL :=
  let target := u32 (c.tick + timeout)
  let c := c.set timer
    { c.timer timer with targetTick := target, flags := .oncountdown, data := data }
  if c.nextAlarmOnTick > target then { c with nextAlarmOnTick := target } else c

/-- When the timer is the next one due, its successor on the ring becomes the
next one; shared by `timer_settimer` and `timer_free`. -/
def timerSkipAlarm (c : TIMERCTL) (timer : TimerId) : TIMERCTL :=
  if c.nextAlarmOnTick = (c.timer timer).targetTick then
    { c with nextAlarmOnTick := (c.timer (timerLinks.next c timer)).targetTick }
  else c

/-- `timer_settimer`. -/
def timerSettimer (c : TIMERCTL) (timer : Option TimerId) (timeout : Nat) (data : UInt8) :
    Option TIMERCTL :=
  match timer with
  | none => some c
  | some t =>
    let data := if data = 0 then (c.timer t).data else data
    match (c.timer t).flags with
    | .oncountdown =>
      let c := timerSkipAlarm c t
      let prevTimer := timerLinks.prev c t
      let c := dlistRemove timerLinks c t
      let c := timerArm c t timeout data
      let head :=
        if (c.timer prevTimer).targetTick < (c.timer t).targetTick then prevTimer else c.listtail
      timerInsertSorted c head t
    | .allocated =>
      let c := timerArm c t timeout data
      timerInsertSorted c c.listtail t
    | _ => some c

/-- `timer_free`: the new state and the FIFO handed to `kfree`. -/
def timerFree (c : TIMERCTL) (timer : Option TimerId) : TIMERCTL × Option Nat :=
  match timer with
  | none => (c, none)
  | some t =>
    if (c.timer t).flags = .guardnode then (c, none)
    else
      let c := if (c.timer t).flags = .oncountdown then timerSkipAlarm c t else c
      let c := dlistRemove timerLinks c t
      let fifo := (c.timer t).fifo
      let c := timerSetDefaultParams c t
      (dlistInsertBefore timerLinks c c.listtail t, fifo)

/-- One call of `mpfifo32_enqueue` by the interrupt handler. -/
structure Firing where
  timer : TimerId
  fifo : Option Nat
  data : UInt8
  tick : Nat
deriving DecidableEq

/-- The loop of `timer_int_handler`, from `pos` on: the firings, and whether
`tssTimer` is among them. -/
def timerIntLoop (tssTimer : Option TimerId) :
    Nat → TIMERCTL → TimerId → Option (TIMERCTL × List Firing × Bool)
  | 0, _, _ => none
  | fuel + 1, c, pos =>
    if pos = c.listtail then some (c, [], false)
    else if (c.timer pos).targetTick > c.tick then some (c, [], false)
    else
      let isTss := decide (tssTimer = some pos)
      let firing : Firing := ⟨pos, (c.timer pos).fifo, (c.timer pos).data, c.tick⟩
      let prevTimer := timerLinks.prev c pos
      let c := c.set pos { c.timer pos with flags := .allocated }
      let c := dlistRemove timerLinks c pos
      -- the list is changed under the loop, which goes on from the predecessor
      (timerIntLoop tssTimer fuel c (timerLinks.next c prevTimer)).map fun (c, fs, isTss') =>
        (c, firing :: fs, isTss || isTss')

/-- `timer_int_handler`. -/
def timerIntHandler (tssTimer : Option TimerId) (c : TIMERCTL) :
    Option (TIMERCTL × List Firing × Bool) :=
  let c := { c with tick := u32 (c.tick + 1) }
  if c.nextAlarmOnTick > c.tick then some (c, [], false)
  else
    (timerIntLoop tssTimer osMaxTimer c (timerLinks.next c c.listtail)).map
      fun (c, fs, isTssTriggerred) =>
        let firstTimer := timerLinks.next c c.listtail
        ({ c with nextAlarmOnTick := (c.timer firstTimer).targetTick }, fs, isTssTriggerred)

/-- `timer_gettick`. -/
def timerGettick (c : TIMERCTL) : Nat := c.tick

end UnagiOs
