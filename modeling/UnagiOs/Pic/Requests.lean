import Mathlib.Logic.Function.Basic

/-!
# Interrupt requests (pic/pic.c, idt/idt.c)

Two 8259 controllers stand between the devices and the CPU, the second one on line 2 of the first
one. A controller passes on a request that is not masked unless one of its own or of a higher
priority is in service; in service it is from the acknowledgement of the CPU until the handler sends
an end of interrupt. Devices change their lines at any time. A controller whose request is gone when
it is acknowledged answers with its line 7, which is not in service then. The second controller is
acknowledged after the first one: if it answers with its line 7, line 2 of the first one is in
service.

What a controller does with its registers is an assumption about hardware: `Pic`, its `command`,
`data` and `serve`, and the acknowledgements of `Pics` stand for the 8259 as the kernel sets it up,
not for code of the kernel.

Handlers run with interrupts off, and each one sends its ends of interrupt before a task can be
switched, so an acknowledgement and its handler are one step here.

- `mouse_again_iff`: after every run, the mouse can get through again exactly if the second
  controller has never answered with its line 7, for which the kernel does not end the interrupt.
  The timer and the keyboard always get through.
-/

namespace UnagiOs

/-! ## The controllers -/

def bit (r : UInt8) (i : Nat) : Bool := r.toNat.testBit i

/-- The registers of an 8259. -/
structure Pic where
  /-- the initialization words that are to come -/
  icw : Nat
  offset : UInt8
  imr : UInt8
  isr : UInt8
  deriving DecidableEq, Repr

namespace Pic

variable (p : Pic)

/-- The lines whose requests can be passed on, in the order of their priorities. -/
def enabled : List Nat :=
  (List.range 8).filter fun i => !bit p.imr i && (List.range (i + 1)).all fun j => !bit p.isr j

/-- A request is in service. -/
def serve (i : Nat) : Pic := { p with isr := p.isr ||| 1 <<< UInt8.ofNat i }

/-- A byte on the command port: the start of an initialization (three more words follow with the
flags that are sent here), or the end of an interrupt. -/
def command (v : UInt8) : Pic :=
  if bit v 4 then { p with icw := 3, imr := 0, isr := 0 }
  else if v >>> 5 = 3 then { p with isr := p.isr &&& ~~~(1 <<< (v &&& 7)) }
  else p

/-- A byte on the data port. -/
def data (v : UInt8) : Pic :=
  if p.icw = 3 then { p with icw := 2, offset := v }
  else if p.icw = 0 then { p with imr := v }
  else { p with icw := p.icw - 1 }

end Pic

inductive PicPort where
  | pic0Command
  | pic0Data
  | pic1Command
  | pic1Data
  deriving DecidableEq, Repr

/-- Both controllers. -/
structure Pics where
  pic0 : Pic
  pic1 : Pic
  deriving DecidableEq, Repr

namespace Pics

variable (s : Pics)

/-- `_io_out8` to one of the controllers -/
def out (w : PicPort × UInt8) : Pics :=
  match w.1 with
  | .pic0Command => { s with pic0 := s.pic0.command w.2 }
  | .pic0Data => { s with pic0 := s.pic0.data w.2 }
  | .pic1Command => { s with pic1 := s.pic1.command w.2 }
  | .pic1Data => { s with pic1 := s.pic1.data w.2 }

/-- The second controller is acknowledged, with this request. -/
def answer1 : Option Nat → Pics × UInt8
  | none => (s, s.pic1.offset + 7)
  | some i => ({ s with pic1 := s.pic1.serve i }, s.pic1.offset + UInt8.ofNat i)

/-- The first controller is acknowledged, with this request, and the second one with that. -/
def answer0 (request1 : Option Nat) : Option Nat → Pics × UInt8
  | none => (s, s.pic0.offset + 7)
  | some 2 => { s with pic0 := s.pic0.serve 2 }.answer1 request1
  | some i => ({ s with pic0 := s.pic0.serve i }, s.pic0.offset + UInt8.ofNat i)

end Pics

/-! ## The kernel -/

/-- `PIC_sendEOI` -/
def picSendEOI (irq : UInt8) : List (PicPort × UInt8) :=
  if irq < 8 then [(.pic0Command, 0x60 ||| irq)]
  else if irq < 16 ∧ 8 ≤ irq then [(.pic1Command, 0x60 ||| (irq - 8)), (.pic0Command, 0x60 ||| 2)]
  else []

/-- `DEBUG_NO_TIMER` -/
def debugNoTimer : Bool := false

/-- `PIC_init` -/
def picInit (offset0 offset1 : UInt8) : List (PicPort × UInt8) :=
  [(.pic0Data, 0xff), (.pic1Data, 0xff),
    (.pic0Command, 0x10 ||| 0x01), (.pic0Data, offset0), (.pic0Data, 0x04), (.pic0Data, 0x01),
    (.pic1Command, 0x10 ||| 0x01 ||| 0x08), (.pic1Data, offset1), (.pic1Data, 2), (.pic1Data, 0x01),
    (.pic0Data, 0xff ^^^ if debugNoTimer then 0x02 ||| 0x04 else 0x01 ||| 0x02 ||| 0x04),
    (.pic1Data, 0xff ^^^ 0x10)]

/-- What `idt_int_default_handler` sends to the controllers. -/
def idtIntDefaultHandler (interruptNumber : UInt8) : List (PicPort × UInt8) :=
  if interruptNumber = 0x3 then []
  else if interruptNumber = 0x20 then picSendEOI 0
  else if interruptNumber = 0x2c then picSendEOI 12
  else if interruptNumber = 0x21 then picSendEOI 1
  else if 0x20 ≤ interruptNumber ∧ interruptNumber < 0x30 then
    -- spurious IRQs
    if interruptNumber = 0x20 + 7 ∨ interruptNumber = 0x28 + 7 then []
    else picSendEOI (interruptNumber - 0x20)
  else []

/-- The controllers, the lines of the devices, and the CPU, which has seen a request or not. -/
structure Interrupts where
  pics : Pics
  /-- the edges that are to be acknowledged: the first controller is triggered by them -/
  lines0 : Nat → Bool
  /-- levels -/
  lines1 : Nat → Bool
  seen : Bool

inductive InterruptOp where
  /-- a line of the first or of the second controller goes up or down -/
  | line0 (i : Nat) (up : Bool)
  | line1 (i : Nat) (up : Bool)
  /-- the CPU looks for a request -/
  | look
  /-- the CPU acknowledges what it has seen, while the lines of the second controller become
  `lines`, and the handler runs -/
  | handle (lines : Nat → Bool)

namespace Interrupts

/-- The requests that are passed on. -/
def request1 (s : Interrupts) : Option Nat := s.pics.pic1.enabled.find? s.lines1

def request0 (s : Interrupts) : Option Nat :=
  s.pics.pic0.enabled.find? (Function.update s.lines0 2 s.request1.isSome)

/-- A step, and the number of the interrupt that is handled. -/
def step (s : Interrupts) : InterruptOp → Interrupts × Option UInt8
  | .line0 i up => ({ s with lines0 := Function.update s.lines0 i up }, none)
  | .line1 i up => ({ s with lines1 := Function.update s.lines1 i up }, none)
  | .look => ({ s with seen := s.seen || s.request0.isSome }, none)
  | .handle lines =>
    if s.seen then
      let r := s.pics.answer0 { s with lines1 := lines }.request1 s.request0
      (⟨(idtIntDefaultHandler r.2).foldl Pics.out r.1,
        fun i => s.lines0 i && s.request0 != some i, lines, false⟩, some r.2)
    else (s, none)

def run (s : Interrupts) (ops : List InterruptOp) : Interrupts :=
  ops.foldl (fun s op => (s.step op).1) s

/-- The interrupts of a run. -/
def handled : Interrupts → List InterruptOp → List UInt8
  | _, [] => []
  | s, op :: ops => (s.step op).2.toList ++ handled (s.step op).1 ops

/-- After `PIC_init(0x20, 0x28)`, whatever was before. -/
def start (pics : Pics) : Interrupts :=
  ⟨(picInit 0x20 0x28).foldl Pics.out pics, fun _ => false, fun _ => false, false⟩

/-! ## Runs -/

/-- The registers between interrupts: nothing is in service, or only line 2. -/
def ready (cut : Bool) : Pics := ⟨⟨0, 0x20, 0xf8, if cut then 4 else 0⟩, ⟨0, 0x28, 0xef, 0⟩⟩

variable {cut : Bool} {s : Interrupts}

/-- Only the mouse gets through the second controller. -/
theorem request1_eq (h : s.pics = ready cut) :
    s.request1 = if s.lines1 4 then some 4 else none := by
  have henabled : s.pics.pic1.enabled = [4] := by
    rw [h]
    show Pic.enabled ⟨0, 0x28, 0xef, 0⟩ = [4]
    decide
  rw [request1, henabled, List.find?_singleton]

/-- The timer, the keyboard and the second controller get through the first one. -/
theorem request0_eq (h : s.pics = ready cut) : s.request0 =
    if s.lines0 0 then some 0 else if s.lines0 1 then some 1
      else if !cut && s.lines1 4 then some 2 else none := by
  have henabled : s.pics.pic0.enabled = if cut then [0, 1] else [0, 1, 2] := by
    rw [h]
    cases cut with
    | true => rfl
    | false => rfl
  rw [request0, henabled, request1_eq h]
  cases cut <;> cases hl0 : s.lines0 0 <;> cases hl1 : s.lines0 1 <;> cases hl4 : s.lines1 4
  all_goals simp [List.find?, hl0, hl1]

/-- The number that the CPU gets. -/
def number (cut : Bool) (s : Interrupts) (lines : Nat → Bool) : UInt8 :=
  if s.lines0 0 then 0x20 else if s.lines0 1 then 0x21
  else if !cut && s.lines1 4 then if lines 4 then 0x2c else 0x2f
  else 0x27

/-- One handler is enough for the second controller to be cut off: it does not end the interrupt of
line 2. -/
theorem step_handle (h : s.pics = ready cut) (hseen : s.seen = true) (lines : Nat → Bool) :
    (s.step (.handle lines)).2 = some (number cut s lines) ∧
      (s.step (.handle lines)).1.pics = ready (cut || number cut s lines == 0x2f) := by
  have h1 : { s with lines1 := lines }.request1 = if lines 4 then some 4 else none :=
    request1_eq (s := { s with lines1 := lines }) h
  rw [step, if_pos hseen, request0_eq h, h1, h]
  unfold number
  cases cut <;> cases s.lines0 0 <;> cases s.lines0 1 <;> cases s.lines1 4 <;> cases lines 4 <;>
    exact ⟨rfl, rfl⟩

/-- **Every step** leaves the second controller connected, or cut off. -/
theorem step_ready (h : s.pics = ready cut) (op : InterruptOp) :
    (s.step op).1.pics = ready (cut || (s.step op).2 == some 0x2f) ∧
      (cut = true → (s.step op).2 ≠ some 0x2c) := by
  have hother : ∀ t : Interrupts, t.pics = s.pics →
      t.pics = ready (cut || (none : Option UInt8) == some 0x2f) ∧
        (cut = true → (none : Option UInt8) ≠ some 0x2c) := by
    intro t ht
    rw [ht, h]
    exact ⟨congrArg ready (Bool.or_false cut).symm, fun _ => Option.some_ne_none _ |>.symm⟩
  cases op with
  | line0 i up => exact hother _ rfl
  | line1 i up => exact hother _ rfl
  | look => exact hother _ rfl
  | handle lines =>
    by_cases hseen : s.seen = true
    · obtain ⟨hnumber, hpics⟩ := step_handle h hseen lines
      rw [hnumber]
      refine ⟨hpics, fun hcut heq => ?_⟩
      subst hcut
      have heq := Option.some.inj heq
      unfold number at heq
      cases hl0 : s.lines0 0 <;> cases hl1 : s.lines0 1 <;> simp [hl0, hl1] at heq
    · rw [step, if_neg hseen]
      exact hother s rfl

theorem run_ready (h : s.pics = ready cut) (ops : List InterruptOp) :
    (s.run ops).pics = ready (cut || decide (0x2f ∈ s.handled ops)) := by
  induction ops generalizing cut s with
  | nil =>
    rw [handled, decide_eq_false List.not_mem_nil, Bool.or_false]
    exact h
  | cons op ops ih =>
    refine (ih (step_ready h op).1).trans (congrArg ready ?_)
    rw [handled, Bool.or_assoc]
    congr 1
    rw [Bool.eq_iff_iff, Bool.or_eq_true, beq_iff_eq, decide_eq_true_iff, decide_eq_true_iff,
      List.mem_append, Option.mem_toList]

/-- What is cut off stays cut off. -/
theorem mouse_not_handled (h : s.pics = ready true) (ops : List InterruptOp) :
    0x2c ∉ s.handled ops := by
  induction ops generalizing s with
  | nil => exact List.not_mem_nil
  | cons op ops ih =>
    obtain ⟨hpics, hne⟩ := step_ready h op
    rw [handled, List.mem_append, Option.mem_toList]
    rintro (hnow | hlater)
    · exact hne rfl hnow
    · exact ih hpics hlater

/-- A request that the CPU can see is handled. -/
theorem number_handled (h : s.pics = ready cut) (lines : Nat → Bool)
    (hrequest : s.request0.isSome = true) :
    number cut s lines ∈ s.handled [.look, .handle lines] := by
  have hlook : s.step .look = ({ s with seen := true }, none) := by
    rw [step, hrequest, Bool.or_true]
  have hhandle := (step_handle (s := { s with seen := true }) h rfl lines).1
  rw [handled, handled, hlook, hhandle]
  exact List.mem_cons_self

/-- **The mouse** gets through again exactly if the second controller has never answered with its
line 7; the timer and the keyboard always do. -/
theorem mouse_again_iff (pics : Pics) (ops : List InterruptOp) :
    ((∃ ops', 0x2c ∈ ((start pics).run ops).handled ops') ↔ 0x2f ∉ (start pics).handled ops) ∧
      (∃ ops', 0x20 ∈ ((start pics).run ops).handled ops') ∧
      ∃ ops', 0x21 ∈ ((start pics).run ops).handled ops' := by
  have hstart : (start pics).pics = ready false := rfl
  have hready := run_ready hstart ops
  rw [Bool.false_or] at hready
  generalize (start pics).run ops = s at hready ⊢
  refine ⟨⟨fun ⟨ops', hmouse⟩ hcut => ?_, fun hcut => ?_⟩, ?_, ?_⟩
  · rw [decide_eq_true hcut] at hready
    exact mouse_not_handled hready ops' hmouse
  · rw [decide_eq_false hcut] at hready
    let t : Interrupts := { s with
      lines0 := Function.update (Function.update s.lines0 0 false) 1 false
      lines1 := Function.update s.lines1 4 true }
    refine ⟨[.line0 0 false, .line0 1 false, .line1 4 true, .look, .handle fun _ => true], ?_⟩
    exact number_handled (s := t) hready _ (by rw [request0_eq (s := t) hready]; rfl)
  · let t : Interrupts := { s with lines0 := Function.update s.lines0 0 true }
    refine ⟨[.line0 0 true, .look, .handle s.lines1], ?_⟩
    exact number_handled (s := t) hready _ (by rw [request0_eq (s := t) hready]; rfl)
  · let t : Interrupts := { s with
      lines0 := Function.update (Function.update s.lines0 0 false) 1 true }
    refine ⟨[.line0 0 false, .line0 1 true, .look, .handle s.lines1], ?_⟩
    exact number_handled (s := t) hready _ (by rw [request0_eq (s := t) hready]; rfl)

end Interrupts

end UnagiOs
