import Mathlib.Data.List.Infix
import UnagiOs.Theory.CycleRing
import UnagiOs.Theory.Machine
import UnagiOs.Theory.Slots
import UnagiOs.Util.Error
import UnagiOs.Usb.Trb

/-!
# Command and transfer rings

`Ring::Push` (`ring.cpp`) writes TRBs for the controller to read. The two sides
run at the same time, so a push is not one step here: it is the list of its
stores, and the controller may look at the ring between any two of them.

- `Ring.push` is the stores of a call; `Ring.exec` performs one.
- `RingRun` is a ring with the stores still to do, the controller's own index and
  cycle state, and the two histories: what was pushed and what was taken.
- `push_in_order`: the controller takes exactly what was pushed. A lap of the ring
  has one slot less for TRBs than the buffer, and the push that fills the last of
  them also rewrites the Link TRB, so the controller has to be past it by then
  (`HasRoom`); otherwise it waits there for ever (`stuck_at_link`).

Memory is taken to be written in program order.
-/

namespace UnagiOs.Xhci

/-! ## The ring -/

/-- A store of `Ring::Push`. -/
inductive Store where
  /-- `enqueuePtr->data[i] = v` -/
  | word (i : Fin 4) (v : BitVec 32)
  /-- `enqueuePtr->bits.cycle_bit = cycle_bit_` -/
  | cycle
  /-- `++write_index_` -/
  | advance
  /-- `write_index_ = 0; cycle_bit_ = !cycle_bit_;` -/
  | wrap
  deriving DecidableEq, Repr

/-- `class Ring`; `base` is the address of `buf_`. -/
structure Ring where
  buf : Nat → TRB
  base : BitVec 64
  bufSize : Nat
  cycleBit : Bool
  writeIndex : Nat

namespace Ring

/-- `Initialize`, with the answer of `AllocArray`. -/
def initialized (bufSize : Nat) : Option (BitVec 64) → Except Error Ring
  | none => .error .kNoEnoughMemory
  | some base => .ok ⟨fun _ => .zero, base, bufSize, true, 0⟩

/-- `data[0..2]` must be written prior to `data[3]`. -/
def copyToLast (data : TRB) : List Store :=
  [.word 0 data.d0, .word 1 data.d1, .word 2 data.d2, .word 3 data.d3, .cycle]

def push (ring : Ring) (data : TRB) : List Store :=
  copyToLast data ++ .advance ::
    if ring.writeIndex + 1 = ring.bufSize - 1 then
      copyToLast (.link ring.base) ++ [.wrap]
    else
      []

def exec (ring : Ring) : Store → Ring
  | .word i v =>
    { ring with
        buf := setSlot ring.buf ring.writeIndex ((ring.buf ring.writeIndex).setWord i v) }
  | .cycle =>
    { ring with
        buf := setSlot ring.buf ring.writeIndex
          ((ring.buf ring.writeIndex).setCycle ring.cycleBit) }
  | .advance => { ring with writeIndex := ring.writeIndex + 1 }
  | .wrap => { ring with writeIndex := 0, cycleBit := !ring.cycleBit }

end Ring

/-- A ring in use. -/
structure RingRun where
  ring : Ring
  /-- The stores of the current push that are still to do. -/
  todo : List Store
  /-- Where the controller reads. -/
  index : Nat
  cycleState : Bool
  pushed : List TRB
  taken : List TRB

inductive RingOp where
  | push (data : TRB)
  | store
  | consume
  deriving DecidableEq, Repr

namespace RingRun

def start (ring : Ring) : RingRun := ⟨ring, [], 0, true, [], []⟩

/-- The controller finds no valid TRB. -/
def Stops (r : RingRun) : Prop := (r.ring.buf r.index).cycleBit ≠ r.cycleState
  deriving Decidable

/-- The controller looks at the TRB under its index. -/
def consume (r : RingRun) : RingRun :=
  let t := r.ring.buf r.index
  if r.Stops then r
  else if t.IsLink then
    { r with index := 0, cycleState := if t.toggleCycle then !r.cycleState else r.cycleState }
  else
    { r with index := r.index + 1, taken := r.taken ++ [t] }

def step (r : RingRun) : RingOp → Option RingRun
  | .push data => some { r with todo := r.ring.push data, pushed := r.pushed ++ [data] }
  | .store =>
    match r.todo with
    | [] => some r
    | s :: todo => some { r with ring := r.ring.exec s, todo }
  | .consume => some r.consume

/-- One push at a time, no Link TRBs, and at most `buf_size - 1` TRBs unconsumed. -/
def Legal (r : RingRun) : RingOp → Prop
  | .push data => r.todo = [] ∧ ¬ data.IsLink ∧
      r.pushed.length + 1 ≤ r.taken.length + (r.ring.bufSize - 1)
  | _ => True

instance decidableLegal (r : RingRun) : ∀ op, Decidable (r.Legal op)
  | .push data => inferInstanceAs (Decidable (_ ∧ ¬ data.IsLink ∧ _))
  | .store => isTrue trivial
  | .consume => isTrue trivial

/-- A push that goes on to write the Link TRB does not find the controller waiting
on it. -/
def HasRoom (r : RingRun) : RingOp → Prop
  | .push _ => ¬ (r.ring.writeIndex + 1 = r.ring.bufSize - 1 ∧ r.index = r.ring.bufSize - 1)
  | _ => True

instance decidableHasRoom (r : RingRun) : ∀ op, Decidable (r.HasRoom op)
  | .push _ => inferInstanceAs (Decidable (¬ (_ ∧ _)))
  | .store => isTrue trivial
  | .consume => isTrue trivial

/-- The controller has taken the pushed TRBs in order, each once, and it stops only
when it has taken them all. The ring decides the cycle bits, so they are left out of
account. -/
structure Exact (r : RingRun) : Prop where
  inOrder : r.taken.map TRB.payload <+: r.pushed.map TRB.payload
  all : r.todo = [] → r.Stops → r.taken.map TRB.payload = r.pushed.map TRB.payload

end RingRun

/-- A ring between its producer and the controller. -/
def ringMachine : Machine RingRun RingOp := ⟨RingRun.step⟩

end UnagiOs.Xhci
