import UnagiOs.Theory.CycleRing
import UnagiOs.Theory.Machine
import UnagiOs.Theory.Slots
import UnagiOs.Util.Error
import UnagiOs.Usb.Trb

/-!
# The event ring

On the event ring the controller is the producer. The software keeps no index: its
place in the ring is the dequeue pointer in the controller's ERDP register, whose
low four bits are not part of the pointer.

- `EventRing` is the class of `ring.hpp`, `ERDP` the register.
- `EventRun` is a ring together with the memory, the register, the controller's
  enqueue index and cycle state, and the two histories: what was produced and what
  was popped.
- `events_in_order`: as long as `Pop` is called on a ring that has a front, the
  software sees the produced events in order and each once. `Pop` does not check
  this itself (`pop_on_empty_ring`).

TRBs are addressed by byte, 16 bytes each. The number of TRBs that `Initialize`
enters in the segment table is all the controller knows of the size; the field has
16 bits. The TRB array comes from `AllocArray`, 64-byte aligned.
-/

namespace UnagiOs.Xhci

def sizeofTRB : Nat := 16

/-- `ERDP_Bitmap`. -/
structure ERDP where
  /-- `dequeue_erst_segment_index` and `event_handler_busy` -/
  low : BitVec 4
  eventRingDequeuePointer : Nat
  deriving DecidableEq, Repr

namespace ERDP

def pointer (erdp : ERDP) : Nat := erdp.eventRingDequeuePointer * 2 ^ 4 % 2 ^ 64

def setPointer (erdp : ERDP) (value : Nat) : ERDP :=
  { erdp with eventRingDequeuePointer := value / 2 ^ 4 % 2 ^ 60 }

/-- The register gives back the address of a TRB. -/
theorem pointer_setPointer {erdp : ERDP} {value : Nat} (hvalue : value < 2 ^ 64)
    (haligned : sizeofTRB ∣ value) : (erdp.setPointer value).pointer = value := by
  obtain ⟨k, rfl⟩ := haligned
  simp only [pointer, setPointer, sizeofTRB] at hvalue ⊢
  omega

end ERDP

/-- `class EventRing`, with the one entry of its segment table. -/
structure EventRing where
  cycleBit : Bool
  ringSegmentBaseAddress : Nat
  ringSegmentSize : Nat
  deriving DecidableEq, Repr

/-- An event ring in use. -/
structure EventRun where
  ring : EventRing
  /-- The TRB at an address. -/
  mem : Nat → TRB
  erdp : ERDP
  /-- Where the controller writes next, and with which cycle bit. -/
  enqueue : Nat
  producerCycle : Bool
  produced : List TRB
  popped : List TRB

inductive EventOp where
  /-- The controller writes an event. -/
  | produce (event : TRB)
  /-- The controller changes the bits of ERDP that are not the pointer. -/
  | busy (low : BitVec 4)
  | pop
  deriving DecidableEq, Repr

namespace EventRun

/-- `EventRing::Initialize`, with the answers of the two `AllocArray`. The memory and
the register may have held anything before. -/
def initialized (mem : Nat → TRB) (erdp : ERDP) (bufSize : Nat) :
    Option Nat → Option Nat → Except Error EventRun
  | some buf, some _ => .ok
      { ring := ⟨true, buf, bufSize % 2 ^ 16⟩
        mem := fun a => if buf ≤ a ∧ a < buf + bufSize * sizeofTRB then .zero else mem a
        erdp := erdp.setPointer buf
        enqueue := 0
        producerCycle := true
        produced := []
        popped := [] }
  | _, _ => .error .kNoEnoughMemory

/-- `ReadDequeuePointer` -/
def front (r : EventRun) : Nat := r.erdp.pointer

def hasFront (r : EventRun) : Bool := (r.mem r.front).cycleBit == r.ring.cycleBit

/-- `Pop`; what is popped is the TRB at the front. -/
def pop (r : EventRun) : EventRun :=
  let p := r.front + sizeofTRB
  let segmentBegin := r.ring.ringSegmentBaseAddress
  let segmentEnd := segmentBegin + r.ring.ringSegmentSize * sizeofTRB
  let r := { r with popped := r.popped ++ [r.mem r.front] }
  if p = segmentEnd then
    { r with erdp := r.erdp.setPointer segmentBegin
             ring := { r.ring with cycleBit := !r.ring.cycleBit } }
  else
    { r with erdp := r.erdp.setPointer p }

/-- The controller writes the event with its cycle state and moves on. -/
def produce (r : EventRun) (event : TRB) : EventRun :=
  let r := { r with
    mem := setSlot r.mem (r.ring.ringSegmentBaseAddress + r.enqueue * sizeofTRB)
      (event.setCycle r.producerCycle)
    produced := r.produced ++ [event] }
  if r.enqueue + 1 = r.ring.ringSegmentSize then
    { r with enqueue := 0, producerCycle := !r.producerCycle }
  else
    { r with enqueue := r.enqueue + 1 }

def step (r : EventRun) : EventOp → Option EventRun
  | .produce event => some (r.produce event)
  | .busy low => some { r with erdp := { r.erdp with low } }
  | .pop => some r.pop

/-- The controller leaves at most a segment of events unread. -/
def Legal (r : EventRun) : EventOp → Prop
  | .produce _ => r.produced.length + 1 ≤ r.popped.length + r.ring.ringSegmentSize
  | _ => True

instance decidableLegal (r : EventRun) : ∀ op, Decidable (r.Legal op)
  | .produce _ => inferInstanceAs (Decidable (_ ≤ _))
  | .busy _ => isTrue trivial
  | .pop => isTrue trivial

/-- `Pop` is called when there is a front. -/
def Guarded (r : EventRun) : EventOp → Prop
  | .pop => r.hasFront = true
  | _ => True

instance decidableGuarded (r : EventRun) : ∀ op, Decidable (r.Guarded op)
  | .produce _ => isTrue trivial
  | .busy _ => isTrue trivial
  | .pop => inferInstanceAs (Decidable (_ = true))

/-- The popped events are the first of the produced ones, there is a front exactly if
there are more, and then the front is the next of them. The ring decides the cycle
bits, so they are left out of account. -/
structure Exact (r : EventRun) : Prop where
  inOrder : r.popped.map TRB.payload <+: r.produced.map TRB.payload
  hasFront_iff : r.hasFront = true ↔ r.popped.length < r.produced.length
  front_eq : r.hasFront = true →
    (r.produced.map TRB.payload)[r.popped.length]? = some (r.mem r.front).payload

end EventRun

/-- An event ring between the controller and the software. -/
def eventMachine : Machine EventRun EventOp := ⟨EventRun.step⟩

/-! ## The invariant -/

/-- The slots of the segment as an array. -/
def EventRun.slots (r : EventRun) (i : Nat) : TRB :=
  r.mem (r.ring.ringSegmentBaseAddress + i * sizeofTRB)

/-- The state of a ring of `B` slots, with the controller at position `P` and the
software at position `C`. -/
structure EventInv (B P C : Nat) (log : List TRB) (r : EventRun) : Prop where
  pos : 0 < B
  size : r.ring.ringSegmentSize = B
  aligned : sizeofTRB ∣ r.ring.ringSegmentBaseAddress
  bounded : r.ring.ringSegmentBaseAddress + B * sizeofTRB ≤ 2 ^ 64
  enqueue : r.enqueue = P % B
  producerCycle : r.producerCycle = phase B P
  front : r.front = r.ring.ringSegmentBaseAddress + C % B * sizeofTRB
  cycleBit : r.ring.cycleBit = phase B C
  mem : CycleRing TRB.cycleBit B r.slots log C
  len : log.length = P
  produced : r.produced.map TRB.payload = log.map TRB.payload
  popped : r.popped = log.take C

namespace EventInv

variable {B P C : Nat} {log : List TRB} {r : EventRun} (hr : EventInv B P C log r)
include hr

theorem hasFront_iff : r.hasFront = true ↔ C < log.length := by
  rw [EventRun.hasFront, beq_iff_eq, hr.front, hr.cycleBit]
  exact hr.mem.front_iff hr.pos

theorem length_popped : r.popped.length = C := by
  rw [hr.popped, List.length_take, Nat.min_eq_left hr.mem.le]

theorem length_produced : r.produced.length = P := by
  have := congrArg List.length hr.produced
  rwa [List.length_map, List.length_map, hr.len] at this

theorem exact : r.Exact where
  inOrder := by
    rw [hr.popped, hr.produced]
    exact (List.take_prefix C log).map _
  hasFront_iff := by
    rw [hr.hasFront_iff, hr.length_popped, hr.length_produced, hr.len]
  front_eq h := by
    have hfront := hr.mem.front (hr.hasFront_iff.mp h)
    rw [hr.produced, hr.length_popped, List.getElem?_map, hfront, hr.front]
    rfl

/-- The event is stored in the slot behind the others. -/
theorem produce_mem {event : TRB} (hlegal : r.Legal (.produce event)) :
    CycleRing TRB.cycleBit B
      (fun i => setSlot r.mem (r.ring.ringSegmentBaseAddress + r.enqueue * sizeofTRB)
        (event.setCycle r.producerCycle) (r.ring.ringSegmentBaseAddress + i * sizeofTRB))
      (log ++ [event.setCycle (phase B P)]) C := by
  have hroom : log.length < C + B := by
    simp only [EventRun.Legal, hr.length_produced, hr.length_popped, hr.size] at hlegal
    rw [hr.len]
    exact hlegal
  have hslots : ∀ i, setSlot r.mem (r.ring.ringSegmentBaseAddress + r.enqueue * sizeofTRB)
      (event.setCycle r.producerCycle) (r.ring.ringSegmentBaseAddress + i * sizeofTRB) =
      if i = log.length % B then event.setCycle (phase B P) else r.slots i := by
    intro i
    have hiff : r.ring.ringSegmentBaseAddress + i * sizeofTRB =
        r.ring.ringSegmentBaseAddress + r.enqueue * sizeofTRB ↔ i = log.length % B := by
      rw [hr.len, ← hr.enqueue]
      simp only [sizeofTRB]
      omega
    rw [setSlot, hr.producerCycle]
    simp only [hiff]
    rfl
  refine hr.mem.publish hr.pos hroom (fun s hs => ?_) ?_ ?_
  · rw [hslots, if_neg hs]
  · rw [hslots, if_pos rfl]
  · rw [TRB.cycleBit_setCycle, hr.len]

/-- The controller writes the next event. -/
theorem produce {event : TRB} (hlegal : r.Legal (.produce event)) :
    EventInv B (P + 1) C (log ++ [event.setCycle (phase B P)]) (r.produce event) := by
  have hmem := hr.produce_mem hlegal
  have hslot : (P + 1) % B = _ := succ_mod_eq hr.pos
  have hphase : phase B (P + 1) = _ := phase_succ hr.pos
  have hlen : (log ++ [event.setCycle (phase B P)]).length = P + 1 := by simp [hr.len]
  have hproduced : (r.produced ++ [event]).map TRB.payload =
      (log ++ [event.setCycle (phase B P)]).map TRB.payload := by
    rw [List.map_append, List.map_append, hr.produced]
    simp
  have hpopped : r.popped = (log ++ [event.setCycle (phase B P)]).take C := by
    rw [List.take_append_of_le_length hr.mem.le]
    exact hr.popped
  unfold EventRun.produce
  simp only [hr.enqueue, hr.size]
  rw [hr.enqueue] at hmem
  split
  · next h =>
    rw [if_pos h] at hslot hphase
    exact { hr with
      enqueue := hslot.symm
      producerCycle := by rw [hphase, hr.producerCycle]
      mem := hmem
      len := hlen
      produced := hproduced
      popped := hpopped }
  · next h =>
    rw [if_neg h] at hslot hphase
    exact { hr with
      enqueue := hslot.symm
      producerCycle := hr.producerCycle.trans hphase.symm
      mem := hmem
      len := hlen
      produced := hproduced
      popped := hpopped }

/-- The driver takes the first event and moves its pointer. -/
theorem pop (hfront : r.hasFront = true) : EventInv B P (C + 1) log r.pop := by
  have hlt := hr.hasFront_iff.mp hfront
  have hslot : (C + 1) % B = _ := succ_mod_eq hr.pos
  have hphase : phase B (C + 1) = _ := phase_succ hr.pos
  have hpopped : r.popped ++ [r.mem r.front] = log.take (C + 1) := by
    rw [List.take_add_one, hr.mem.front hlt, hr.popped, hr.front]
    rfl
  -- the pointer reaches the end of the segment iff the slot is the last
  have hend : r.front + sizeofTRB = r.ring.ringSegmentBaseAddress +
      r.ring.ringSegmentSize * sizeofTRB ↔ C % B + 1 = B := by
    rw [hr.front, hr.size]
    simp only [sizeofTRB]
    omega
  have hbounded := hr.bounded
  have hpos := hr.pos
  unfold EventRun.pop
  dsimp only
  split
  · next h =>
    have hwrap := hend.mp h
    rw [if_pos hwrap] at hslot hphase
    refine { hr with
      front := ?_
      cycleBit := ?_
      mem := hr.mem.take hlt
      popped := hpopped }
    · show (r.erdp.setPointer r.ring.ringSegmentBaseAddress).pointer = _
      rw [ERDP.pointer_setPointer _ hr.aligned, hslot, Nat.zero_mul, Nat.add_zero]
      simp only [sizeofTRB] at hbounded
      omega
    · show (!r.ring.cycleBit) = _
      rw [hphase, hr.cycleBit]
  · next h =>
    have hwrap : ¬ C % B + 1 = B := fun he => h (hend.mpr he)
    have hmod := Nat.mod_lt C hr.pos
    rw [if_neg hwrap] at hslot hphase
    refine { hr with
      front := ?_
      cycleBit := hr.cycleBit.trans hphase.symm
      mem := hr.mem.take hlt
      popped := hpopped }
    show (r.erdp.setPointer (r.front + sizeofTRB)).pointer = _
    have haddr : r.front + sizeofTRB =
        r.ring.ringSegmentBaseAddress + (C + 1) % B * sizeofTRB := by
      rw [hr.front, hslot, Nat.succ_mul, Nat.add_assoc]
    rw [haddr, ERDP.pointer_setPointer _ (Nat.dvd_add hr.aligned (Nat.dvd_mul_left _ _))]
    rw [hslot]
    simp only [sizeofTRB] at hbounded ⊢
    omega

theorem step {op : EventOp} (hlegal : r.Legal op) (hguarded : r.Guarded op) :
    ∃ r', eventMachine.step r op = some r' ∧ ∃ P' C' log', EventInv B P' C' log' r' := by
  cases op with
  | produce event => exact ⟨_, rfl, P + 1, C, _, hr.produce hlegal⟩
  | busy low =>
    exact ⟨_, rfl, P, C, log, { hr with }⟩
  | pop => exact ⟨_, rfl, P, C + 1, log, hr.pop hguarded⟩

end EventInv

/-! ## Results -/

/-- What `AllocArray` gives: an aligned array of TRBs in the address space. -/
structure TRBArray (buf bufSize : Nat) : Prop where
  aligned : 64 ∣ buf
  bounded : buf + bufSize * sizeofTRB ≤ 2 ^ 64

section Results

variable {mem : Nat → TRB} {erdp : ERDP} {bufSize buf : Nat} {erst : Option Nat} {r : EventRun}

/-- The ring that `Initialize` sets up is empty. -/
theorem EventInv.start (harray : TRBArray buf bufSize) (hsize : 0 < bufSize % 2 ^ 16)
    (hinit : EventRun.initialized mem erdp bufSize (some buf) erst = .ok r) :
    EventInv (bufSize % 2 ^ 16) 0 0 [] r := by
  cases erst with
  | none => cases hinit
  | some _ =>
    cases hinit
    have haligned : sizeofTRB ∣ buf := Nat.dvd_trans (by decide) harray.aligned
    have hbounded := harray.bounded
    have hphase : phase (bufSize % 2 ^ 16) 0 = true := by simp [phase]
    have hle := Nat.mod_le bufSize (2 ^ 16)
    have hbuf : buf + bufSize % 2 ^ 16 * sizeofTRB ≤ 2 ^ 64 := by
      simp only [sizeofTRB] at hbounded ⊢
      omega
    refine ⟨hsize, rfl, haligned, hbuf, (Nat.zero_mod _).symm, hphase.symm, ?_, hphase.symm,
      .start fun i hi => ?_, rfl, rfl, rfl⟩
    · show (erdp.setPointer buf).pointer = _
      rw [ERDP.pointer_setPointer _ haligned, Nat.zero_mod, Nat.zero_mul, Nat.add_zero]
      simp only [sizeofTRB] at hbuf
      omega
    · have hzero : TRB.zero.cycleBit = false := by decide
      show (if buf ≤ buf + i * sizeofTRB ∧ buf + i * sizeofTRB < buf + bufSize * sizeofTRB
        then TRB.zero else _).cycleBit = false
      rw [if_pos, hzero]
      simp only [sizeofTRB]
      omega

/-- However the controller's writes and the software's calls interleave, the software
sees the produced events in order and each once, as long as it pops only when there
is a front. -/
theorem events_in_order (harray : TRBArray buf bufSize) (hsize : 0 < bufSize % 2 ^ 16)
    (hinit : EventRun.initialized mem erdp bufSize (some buf) erst = .ok r) {ops : List EventOp}
    (hops : eventMachine.AllSteps (fun r op => r.Legal op ∧ r.Guarded op) r ops) :
    eventMachine.AllStates EventRun.Exact r ops := by
  let Inv (r : EventRun) : Prop := ∃ P C log, EventInv (bufSize % 2 ^ 16) P C log r
  have hstep : ∀ r op, Inv r → r.Legal op ∧ r.Guarded op →
      ∃ r', eventMachine.step r op = some r' ∧ True ∧ Inv r' := by
    rintro r op ⟨P, C, log, hr⟩ ⟨hlegal, hguarded⟩
    obtain ⟨r', heq, hr'⟩ := hr.step hlegal hguarded
    exact ⟨r', heq, trivial, hr'⟩
  have hexact : ∀ r, Inv r → r.Exact := by
    rintro r ⟨P, C, log, hr⟩
    exact hr.exact
  exact Machine.always_of_inv hexact hstep ⟨0, 0, [], .start harray hsize hinit⟩ hops

end Results

/-- A port status change event. -/
def portStatusChangeEvent (port : BitVec 32) : TRB := ⟨port <<< 24, 0, 0, 34#32 <<< 10⟩

/-- Two laps of a ring of two, from empty to full and back. -/
def fullAndEmpty : List EventOp :=
  [.produce (portStatusChangeEvent 1), .busy 8, .produce (portStatusChangeEvent 2), .pop, .busy 0,
    .pop, .produce (portStatusChangeEvent 3), .pop, .produce (portStatusChangeEvent 4),
    .produce (portStatusChangeEvent 5), .pop, .pop]

theorem events_in_order_fullAndEmpty :
    ∃ r, EventRun.initialized (fun _ => .zero) ⟨0, 0⟩ 2 (some 0x1000) (some 0x2000) = .ok r ∧
      eventMachine.AllStates EventRun.Exact r fullAndEmpty := by
  have harray : TRBArray 0x1000 2 := ⟨by decide, by decide⟩
  have hinit : EventRun.initialized (fun _ => .zero) ⟨0, 0⟩ 2 (some 0x1000) (some 0x2000) =
    .ok _ := rfl
  exact ⟨_, hinit, events_in_order harray (by decide) hinit (by decide +kernel)⟩

/-- A `Pop` on the empty ring moves past the slot of the next event: once that event is
there, it is unread and there is no front. -/
theorem pop_on_empty_ring :
    let ops := [.pop, .produce (portStatusChangeEvent 1)]
    ∃ r, EventRun.initialized (fun _ => .zero) ⟨0, 0⟩ 2 (some 0x1000) (some 0x2000) = .ok r ∧
      eventMachine.AllSteps EventRun.Legal r ops ∧
      ∃ r', eventMachine.run r ops = some r' ∧ r'.produced = [portStatusChangeEvent 1] ∧
        (portStatusChangeEvent 1).payload ∉ r'.popped.map TRB.payload ∧ r'.hasFront = false :=
  ⟨_, rfl, by decide +kernel, Machine.exists_run_of_any (by decide +kernel)⟩

end UnagiOs.Xhci
