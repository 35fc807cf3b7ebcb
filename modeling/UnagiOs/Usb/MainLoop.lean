import UnagiOs.Usb.EventRing
import UnagiOs.Util.ArrayQueue

/-!
# The interrupt handler and the main loop (main.cpp)

Three parties: the controller writes events and raises interrupts, `IntHandlerXHCI` pushes a
message for an interrupt, the main loop of `KernelMainNewStack` takes a message and then drains
the event ring. A message stands for no particular event. It may be lost in a full queue, and
one drain takes the events of several interrupts.

What carries the proof is that an unprocessed event is always on somebody's list
(`KernelInv.noticed`): an interrupt is pending, or the handler is about to push, or a message
waits, or the main loop is on its way through the drain.

- One interrupt at most is pending. It is delivered between two steps of the main loop if
  interrupts are on, and while the handler runs nothing else runs on the processor.
- `sti` takes effect after the next instruction, so `sti; hlt` is one step.
- A step that is not possible in a state does nothing there, so that any list of steps is an
  interleaving. A controller with no room in the ring writes nothing.
- What `OnEvent` does with an event is left out; it does not touch the event ring, and an
  error of `ProcessEvent` is only logged.
-/

namespace UnagiOs.Xhci

/-- `Message::Type`. `main_queue_data` is not initialized, so a slot may also hold what is no
enumerator. -/
inductive MessageType where
  | kInterruptXHCI
  | other (value : Nat)
  deriving DecidableEq, Repr

structure Message where
  type : MessageType
  deriving DecidableEq, Repr

/-- What the main loop does next. -/
inductive LoopPC where
  | cli
  | isEmpty
  | stiHlt
  | halted
  | front
  | pop (msg : Message)
  | sti (msg : Message)
  | switch (msg : Message)
  /-- the condition of the inner `while` -/
  | hasFront
  /-- the test at the head of `ProcessEvent` -/
  | processEvent
  | popEvent
  deriving DecidableEq, Repr

namespace LoopPC

def interruptsOn : LoopPC → Bool
  | isEmpty | stiHlt | front | pop _ | sti _ => false
  | _ => true

/-- Where the main loop goes on after an interrupt. -/
def resume : LoopPC → LoopPC
  | halted => cli
  | pc => pc

/-- From a message taken to the end of the drain. -/
def draining : LoopPC → Bool
  | sti _ | switch _ | hasFront | processEvent | popEvent => true
  | _ => false

def asleep : LoopPC → Bool
  | stiHlt | halted => true
  | _ => false

end LoopPC

/-- What `IntHandlerXHCI` does next. -/
inductive HandlerPC where
  | push
  | notifyEndOfInterrupt
  deriving DecidableEq, Repr

structure Kernel where
  mainQueue : ArrayQueue Message
  events : EventRun
  pending : Bool
  /-- `none` when the handler does not run -/
  handler : Option HandlerPC
  pc : LoopPC

inductive KernelOp where
  /-- The controller appends an event and raises an interrupt. -/
  | event (trb : TRB)
  /-- The interrupt is delivered. -/
  | interrupt
  | handler
  | main
  deriving DecidableEq, Repr

namespace Kernel

def start (events : EventRun) (mainQueueData : Nat → Message) : Kernel :=
  ⟨.ofBuffer mainQueueData 32, events, false, none, .cli⟩

def raise (k : Kernel) (trb : TRB) : Kernel :=
  if k.events.Legal (.produce trb) then
    { k with events := k.events.produce trb, pending := true }
  else k

def deliver (k : Kernel) : Kernel :=
  if k.pending = true ∧ k.handler = none ∧ k.pc.interruptsOn = true then
    { k with pending := false, handler := some .push, pc := k.pc.resume }
  else k

/-- `IntHandlerXHCI`; what `Push` answers is not looked at. -/
def handle (k : Kernel) : Kernel :=
  match k.handler with
  | none => k
  | some .push =>
    { k with
      mainQueue := (k.mainQueue.push ⟨.kInterruptXHCI⟩).1
      handler := some .notifyEndOfInterrupt }
  | some .notifyEndOfInterrupt => { k with handler := none }

/-- The main loop. -/
def loop (k : Kernel) : Kernel :=
  match k.pc with
  | .cli => { k with pc := .isEmpty }
  | .isEmpty => { k with pc := if k.mainQueue.isEmpty then .stiHlt else .front }
  | .stiHlt => { k with pc := .halted }
  | .halted => k
  | .front => { k with pc := .pop k.mainQueue.front }
  | .pop msg => { k with mainQueue := k.mainQueue.pop.1, pc := .sti msg }
  | .sti msg => { k with pc := .switch msg }
  | .switch msg =>
    match msg.type with
    | .kInterruptXHCI => { k with pc := .hasFront }
    | .other _ => { k with pc := .cli }
  | .hasFront => { k with pc := if k.events.hasFront then .processEvent else .cli }
  | .processEvent => { k with pc := if k.events.hasFront then .popEvent else .hasFront }
  | .popEvent => { k with events := k.events.pop, pc := .hasFront }

def step (k : Kernel) : KernelOp → Option Kernel
  | .event trb => some (k.raise trb)
  | .interrupt => some k.deliver
  | .handler => some k.handle
  | .main => some (if k.handler = none then k.loop else k)

/-- The main loop sleeps, or is about to, nothing is there to wake it, and an event waits. -/
structure Stranded (k : Kernel) : Prop where
  asleep : k.pc.asleep = true
  empty : k.mainQueue.isEmpty = true
  notPending : k.pending = false
  unprocessed : k.events.popped.length < k.events.produced.length

end Kernel

def kernelMachine : Machine Kernel KernelOp := ⟨Kernel.step⟩

/-! ## The message queue -/

/-- A queue of interrupt messages. -/
def MainQueue (q : ArrayQueue Message) : Prop :=
  ∃ c l, ArrayQueue.Repr 32 c l q ∧ ∀ msg ∈ l, msg.type = .kInterruptXHCI

namespace MainQueue

variable {q : ArrayQueue Message}

/-- After a `Push`, refused or not, there is a message. -/
theorem push (hq : MainQueue q) :
    MainQueue (q.push ⟨.kInterruptXHCI⟩).1 ∧ (q.push ⟨.kInterruptXHCI⟩).1.isEmpty = false := by
  obtain ⟨c, l, hrepr, htypes⟩ := hq
  by_cases hfull : l.length = 32
  · rw [hrepr.push_full hfull]
    refine ⟨⟨c, l, hrepr, htypes⟩, Bool.eq_false_iff.mpr fun hempty => ?_⟩
    rw [hrepr.isEmpty_iff.mp hempty] at hfull
    cases hfull
  · obtain ⟨q', heq, hrepr'⟩ := hrepr.push_room hfull ⟨.kInterruptXHCI⟩
    rw [heq]
    refine ⟨⟨c, _, hrepr', fun msg hmsg => ?_⟩, Bool.eq_false_iff.mpr fun hempty => ?_⟩
    · rcases List.mem_append.mp hmsg with hmsg | hmsg
      · exact htypes msg hmsg
      · rw [List.mem_singleton.mp hmsg]
    · exact List.append_ne_nil_of_right_ne_nil l (List.cons_ne_nil _ _)
        (hrepr'.isEmpty_iff.mp hempty)

theorem front (hq : MainQueue q) (hne : q.isEmpty = false) :
    q.front.type = .kInterruptXHCI := by
  obtain ⟨c, l, hrepr, htypes⟩ := hq
  cases l with
  | nil => exact absurd (hrepr.isEmpty_iff.mpr rfl) (Bool.eq_false_iff.mp hne)
  | cons msg l =>
    rw [hrepr.front]
    exact htypes msg List.mem_cons_self

theorem pop (hq : MainQueue q) : MainQueue q.pop.1 := by
  obtain ⟨c, l, hrepr, htypes⟩ := hq
  cases l with
  | nil =>
    rw [hrepr.pop_empty]
    exact ⟨c, [], hrepr, htypes⟩
  | cons msg l =>
    obtain ⟨q', heq, hrepr'⟩ := hrepr.pop_cons
    rw [heq]
    exact ⟨c + 1, l, hrepr', fun msg' hmsg => htypes msg' (List.mem_cons_of_mem _ hmsg)⟩

end MainQueue

/-! ## The invariant -/

/-- What the main loop knows where it is. -/
def Kernel.Knows (k : Kernel) : LoopPC → Prop
  | .front => k.mainQueue.isEmpty = false
  | .pop msg => k.mainQueue.isEmpty = false ∧ msg.type = .kInterruptXHCI
  | .sti msg | .switch msg => msg.type = .kInterruptXHCI
  | .popEvent => k.events.hasFront = true
  | _ => True

structure KernelInv (B : Nat) (k : Kernel) : Prop where
  queue : MainQueue k.mainQueue
  events : ∃ P C log, EventInv B P C log k.events
  /-- The handler does not run where interrupts are off or the processor halts. -/
  masked : k.handler ≠ none → k.pc.interruptsOn = true ∧ k.pc ≠ .halted
  knows : k.Knows k.pc
  noticed : k.events.hasFront = true → k.pending = true ∨ k.handler = some .push ∨
    k.mainQueue.isEmpty = false ∨ k.pc.draining = true

/-- A front stays, and a message stays, while others run. -/
theorem Kernel.Knows.mono {k k' : Kernel}
    (hqueue : k.mainQueue.isEmpty = false → k'.mainQueue.isEmpty = false)
    (hfront : k.events.hasFront = true → k'.events.hasFront = true) {pc : LoopPC}
    (h : k.Knows pc) : k'.Knows pc := by
  cases pc with
  | front => exact hqueue h
  | pop msg => exact ⟨hqueue h.1, h.2⟩
  | popEvent => exact hfront h
  | _ => exact h

namespace KernelInv

variable {B : Nat} {k : Kernel}

section Steps

variable (hk : KernelInv B k)
include hk

theorem raise (trb : TRB) : KernelInv B (k.raise trb) := by
  unfold Kernel.raise
  split
  · next hlegal =>
    obtain ⟨P, C, log, hr⟩ := hk.events
    have hr' := hr.produce hlegal
    have hfront : (k.events.produce trb).hasFront = true := by
      rw [hr'.hasFront_iff, List.length_append]
      exact Nat.lt_succ_of_le hr.mem.le
    refine { hk with
      events := ⟨P + 1, C, _, hr'⟩
      knows := ?_
      noticed := fun _ => .inl rfl }
    apply hk.knows.mono
    · exact id
    · exact fun _ => hfront
  · exact hk

theorem deliver : KernelInv B k.deliver := by
  unfold Kernel.deliver
  split
  · next h =>
    obtain ⟨-, -, hon⟩ := h
    refine { hk with masked := fun _ => ?_, knows := ?_, noticed := fun _ => .inr (.inl rfl) }
    · cases hpc : k.pc <;> simp_all [LoopPC.resume, LoopPC.interruptsOn]
    · have hknows := hk.knows
      show k.Knows k.pc.resume
      cases hpc : k.pc with
      | halted => trivial
      | _ =>
        rw [hpc] at hknows
        exact hknows
  · exact hk

theorem handle : KernelInv B k.handle := by
  unfold Kernel.handle
  split
  · exact hk
  · next hpush =>
    obtain ⟨hqueue, hne⟩ := hk.queue.push
    have hmasked := hk.masked (by rw [hpush]; exact Option.some_ne_none _)
    refine { hk with
      queue := hqueue
      masked := fun _ => hmasked
      knows := ?_
      noticed := fun _ => .inr (.inr (.inl hne)) }
    apply hk.knows.mono
    · exact fun _ => hne
    · exact id
  · next hend =>
    refine { hk with masked := fun h => absurd rfl h, noticed := fun hfront => ?_ }
    rcases hk.noticed hfront with hpending | hpush | hmessage
    · exact .inl hpending
    · rw [hend] at hpush
      cases hpush
    · exact .inr (.inr hmessage)

/-- The steps of the main loop that neither take a message nor leave the drain. -/
theorem moved (hhandler : k.handler = none) {pc : LoopPC} (hknows : k.Knows pc)
    (hdraining : k.pc.draining = true → pc.draining = true) :
    KernelInv B { k with pc } where
  queue := hk.queue
  events := hk.events
  masked h := absurd hhandler h
  knows := hknows
  noticed hfront := by
    rcases hk.noticed hfront with hpending | hpush | hmessage | hdrain
    · exact .inl hpending
    · exact .inr (.inl hpush)
    · exact .inr (.inr (.inl hmessage))
    · exact .inr (.inr (.inr (hdraining hdrain)))

/-- A step of the main loop. The handler does not run. -/
theorem loop (hhandler : k.handler = none) : KernelInv B k.loop := by
  have hknows := hk.knows
  unfold Kernel.loop
  split
  · exact hk.moved hhandler trivial fun h => by simp_all [LoopPC.draining]
  · next hpc =>
    cases hempty : k.mainQueue.isEmpty with
    | true => exact hk.moved hhandler trivial fun h => by simp_all [LoopPC.draining]
    | false => exact hk.moved hhandler hempty fun h => by simp_all [LoopPC.draining]
  · exact hk.moved hhandler trivial fun h => by simp_all [LoopPC.draining]
  · exact hk
  · next hpc =>
    rw [hpc] at hknows
    exact hk.moved hhandler ⟨hknows, hk.queue.front hknows⟩ fun h => by simp_all [LoopPC.draining]
  · next msg hpc =>
    rw [hpc] at hknows
    exact { hk with
      queue := hk.queue.pop
      masked := fun h => absurd hhandler h
      knows := hknows.2
      noticed := fun _ => .inr (.inr (.inr rfl)) }
  · next msg hpc =>
    rw [hpc] at hknows
    exact hk.moved hhandler hknows fun _ => rfl
  · next msg hpc =>
    rw [hpc] at hknows
    rw [show msg.type = .kInterruptXHCI from hknows]
    exact hk.moved hhandler trivial fun _ => rfl
  · next hpc =>
    cases hfront : k.events.hasFront with
    | true => exact hk.moved hhandler trivial fun _ => rfl
    | false =>
      -- the end of the drain: there is nothing left to notice
      exact { hk with
        masked := fun h => absurd hhandler h
        knows := trivial
        noticed := fun h => absurd (hfront.symm.trans h) Bool.false_ne_true }
  · next hpc =>
    cases hfront : k.events.hasFront with
    | true => exact hk.moved hhandler hfront fun _ => rfl
    | false => exact hk.moved hhandler trivial fun _ => rfl
  · next hpc =>
    rw [hpc] at hknows
    obtain ⟨P, C, log, hr⟩ := hk.events
    exact { hk with
      events := ⟨P, C + 1, log, hr.pop hknows⟩
      masked := fun h => absurd hhandler h
      knows := trivial
      noticed := fun _ => .inr (.inr (.inr rfl)) }

theorem step (op : KernelOp) : ∃ k', kernelMachine.step k op = some k' ∧ KernelInv B k' := by
  cases op with
  | event trb => exact ⟨_, rfl, hk.raise trb⟩
  | interrupt => exact ⟨_, rfl, hk.deliver⟩
  | handler => exact ⟨_, rfl, hk.handle⟩
  | main =>
    refine ⟨_, rfl, ?_⟩
    split
    · next hhandler => exact hk.loop hhandler
    · exact hk

theorem not_stranded : ¬ k.Stranded := by
  intro h
  obtain ⟨P, C, log, hr⟩ := hk.events
  rcases hk.noticed (hr.exact.hasFront_iff.mpr h.unprocessed) with hp | hpush | hmessage | hdrain
  · exact Bool.false_ne_true (h.notPending.symm.trans hp)
  · have hmasked := hk.masked (by rw [hpush]; exact Option.some_ne_none _)
    have hasleep := h.asleep
    cases hpc : k.pc <;> simp_all [LoopPC.asleep, LoopPC.interruptsOn]
  · exact Bool.false_ne_true (hmessage.symm.trans h.empty)
  · have hasleep := h.asleep
    cases hpc : k.pc <;> simp_all [LoopPC.asleep, LoopPC.draining]

end Steps

theorem start {r : EventRun} (hr : EventInv B 0 0 [] r) (data : Nat → Message) :
    KernelInv B (.start r data) where
  queue := ⟨0, [], .start data, fun _ h => absurd h List.not_mem_nil⟩
  events := ⟨0, 0, [], hr⟩
  masked h := absurd rfl h
  knows := trivial
  noticed hfront := absurd (hr.hasFront_iff.mp hfront) (Nat.not_lt_zero 0)

end KernelInv

/-! ## Result -/

/-- **No event is stranded**, however the controller, the interrupt handler and the main loop
interleave. -/
theorem no_event_stranded {mem : Nat → TRB} {erdp : ERDP} {bufSize buf : Nat} {erst : Option Nat}
    {r : EventRun} (harray : TRBArray buf bufSize) (hsize : 0 < bufSize % 2 ^ 16)
    (hinit : EventRun.initialized mem erdp bufSize (some buf) erst = .ok r)
    (data : Nat → Message) (ops : List KernelOp) :
    kernelMachine.AllStates (fun k => ¬ k.Stranded) (.start r data) ops := by
  have hstep : ∀ k op, KernelInv (bufSize % 2 ^ 16) k → True →
      ∃ k', kernelMachine.step k op = some k' ∧ True ∧ KernelInv (bufSize % 2 ^ 16) k' := by
    intro k op hk _
    obtain ⟨k', heq, hk'⟩ := hk.step op
    exact ⟨k', heq, trivial, hk'⟩
  exact Machine.always_of_inv (fun k hk => hk.not_stranded) hstep
    (.start (.start harray hsize hinit) data) (.of_mem fun _ _ _ => trivial)

/-- An event arrives after the test of the queue, when the main loop is about to halt. -/
theorem no_event_stranded_late_event :
    ∃ r, EventRun.initialized (fun _ => .zero) ⟨0, 0⟩ 32 (some 0x1000) (some 0x2000) = .ok r ∧
      kernelMachine.AllStates (fun k => ¬ k.Stranded) (.start r fun _ => ⟨.other 7⟩)
        [.main, .main, .event (portStatusChangeEvent 1), .main, .interrupt, .handler,
          .handler] := by
  have harray : TRBArray 0x1000 32 := ⟨by decide, by decide⟩
  have hinit : EventRun.initialized (fun _ => .zero) ⟨0, 0⟩ 32 (some 0x1000) (some 0x2000) =
    .ok _ := rfl
  exact ⟨_, hinit, no_event_stranded harray (by decide) hinit _ _⟩

end UnagiOs.Xhci
