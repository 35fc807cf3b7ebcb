import UnagiOs.Theory.Machine
import UnagiOs.Util.Kutil

/-!
# The PS/2 mouse decoder (drivers/ps2mouse.c)

`ps2mouse_decode` takes the bytes of the mouse one at a time and keeps, in a
`MOUSE_DATA_BUNDLE`, the bytes of the packet it is in, the phase (which byte it
waits for; 0 before the mouse has acknowledged) and the last movement it has
decoded. A packet is a byte with bit 3 set, the signs of the movement and the
buttons, and then the low bytes of the two movements, which are 9-bit two's
complement numbers.

The acknowledgement 0xfa is looked for in every phase. A movement whose low
byte is 0xfa (250 or -6) is taken for one: the packet it is in is dropped, and
what is left of it is read as the start of another.
-/

namespace UnagiOs

structure MOUSE_DATA_BUNDLE where
  buf : Vector (BitVec 8) 3
  phase : BitVec 8
  x : BitVec 32
  y : BitVec 32
  btn : BitVec 32
deriving DecidableEq, Repr

/-- `glue_twos_compliment_fragment`. -/
def glueTwosComplimentFragment (signedBit : Bool) (tail : BitVec 8) : BitVec 32 :=
  let res : BitVec 32 := 0
  if signedBit then
    let res := ~~~ res
    let res := res &&& 0xffffff00
    res ||| tail.setWidth 32
  else tail.setWidth 32

/-- `ps2mouse_parse_three_bytes`. -/
def ps2mouseParseThreeBytes (m : MOUSE_DATA_BUNDLE) : MOUSE_DATA_BUNDLE :=
  let state := m.buf[0]
  let secondByte := m.buf[1]
  let thirdByte := m.buf[2]
  let relX := glueTwosComplimentFragment (isMaskBitsAllSet (state.setWidth 32) 0x10#32) secondByte
  let relY := glueTwosComplimentFragment (isMaskBitsAllSet (state.setWidth 32) 0x20#32) thirdByte
  -- bits 0 to 2 are the buttons
  { m with x := relX, y := relY, btn := m.buf[0].setWidth 32 &&& 0b111#32 }

/-- `ps2mouse_decode`. -/
def ps2mouseDecode (scancode : BitVec 8) (m : MOUSE_DATA_BUNDLE) : MOUSE_DATA_BUNDLE :=
  let m := if scancode = 0xfa#8 then { m with phase := 1#8 } else m
  if m.phase = 0#8 then m
  -- the overflow bits are clear and bit 3 is set
  else if m.phase = 1#8 ∧ scancode &&& 0xc8#8 = 0x08#8 then
    { m with buf := m.buf.set 0 scancode, phase := 2#8 }
  else if m.phase = 2#8 then
    { m with buf := m.buf.set 1 scancode, phase := 3#8 }
  else if m.phase = 3#8 then
    { ps2mouseParseThreeBytes { m with buf := m.buf.set 2 scancode } with phase := 1#8 }
  else m

/-- The bundle after a list of bytes. -/
def decodeBytes (m : MOUSE_DATA_BUNDLE) (bytes : List (BitVec 8)) : MOUSE_DATA_BUNDLE :=
  bytes.foldl (fun m scancode => ps2mouseDecode scancode m) m

/-! ## Packets -/

/-- A movement of the mouse and its buttons; the overflow bits are clear. -/
structure Packet where
  dx : Int
  dy : Int
  btn : BitVec 3
  dx_range : -256 ≤ dx ∧ dx ≤ 255
  dy_range : -256 ≤ dy ∧ dy ≤ 255
deriving DecidableEq

/-- The first byte: bit 3, the signs of the movement and the buttons. -/
def packetState (signX signY : Bool) (btn : BitVec 3) : BitVec 8 :=
  0x08 ||| (if signX then 0x10 else 0) ||| (if signY then 0x20 else 0) ||| btn.setWidth 8

namespace Packet

def state (p : Packet) : BitVec 8 := packetState (decide (p.dx < 0)) (decide (p.dy < 0)) p.btn

/-- The low bytes of the movement. -/
def lowX (p : Packet) : BitVec 8 := BitVec.ofInt 8 p.dx

def lowY (p : Packet) : BitVec 8 := BitVec.ofInt 8 p.dy

/-- The packet as the mouse sends it. -/
def bytes (p : Packet) : List (BitVec 8) := [p.state, p.lowX, p.lowY]

/-- No byte of the movement looks like an acknowledgement. -/
def NoAck (p : Packet) : Prop := p.lowX ≠ 0xfa#8 ∧ p.lowY ≠ 0xfa#8

instance (p : Packet) : Decidable p.NoAck := inferInstanceAs (Decidable (_ ∧ _))

end Packet

/-- The bundle holds the movement and the buttons of `p`. -/
def MOUSE_DATA_BUNDLE.Holds (m : MOUSE_DATA_BUNDLE) (p : Packet) : Prop :=
  m.x.toInt = p.dx ∧ m.y.toInt = p.dy ∧ m.btn = p.btn.setWidth 32

instance (m : MOUSE_DATA_BUNDLE) (p : Packet) : Decidable (m.Holds p) :=
  inferInstanceAs (Decidable (_ ∧ _))

/-! ## The bytes of a packet -/

theorem glueTwosComplimentFragment_toInt (signedBit : Bool) (tail : BitVec 8) :
    (glueTwosComplimentFragment signedBit tail).toInt =
      tail.toNat - (if signedBit then 256 else 0 : Int) := by
  revert signedBit tail
  decide +kernel

/-- The sign bit and the low byte of a 9-bit number give it back. -/
theorem glueTwosComplimentFragment_ofInt {d : Int} (hd : -256 ≤ d ∧ d ≤ 255) :
    (glueTwosComplimentFragment (decide (d < 0)) (BitVec.ofInt 8 d)).toInt = d := by
  rw [glueTwosComplimentFragment_toInt]
  have hlow : ((BitVec.ofInt 8 d).toNat : Int) = d % 256 := by
    rw [BitVec.toNat_ofInt]
    omega
  rw [hlow]
  by_cases h : d < 0
  · simp only [h, decide_true, if_true]
    omega
  · simp only [h, decide_false, Bool.false_eq_true, if_false]
    omega

theorem packetState_spec (signX signY : Bool) (btn : BitVec 3) :
    let state := packetState signX signY btn
    state ≠ 0xfa#8 ∧ state &&& 0xc8#8 = 0x08#8 ∧
      isMaskBitsAllSet (state.setWidth 32) 0x10#32 = signX ∧
      isMaskBitsAllSet (state.setWidth 32) 0x20#32 = signY ∧
      state.setWidth 32 &&& 0b111#32 = btn.setWidth 32 := by
  revert signX signY btn
  decide +kernel

section Decode

variable {m : MOUSE_DATA_BUNDLE} {scancode : BitVec 8}

theorem decode_first (hphase : m.phase = 1#8) (hack : scancode ≠ 0xfa#8)
    (hstate : scancode &&& 0xc8#8 = 0x08#8) :
    ps2mouseDecode scancode m = { m with buf := m.buf.set 0 scancode, phase := 2#8 } := by
  simp [ps2mouseDecode, hack, hphase, hstate]

theorem decode_second (hphase : m.phase = 2#8) (hack : scancode ≠ 0xfa#8) :
    ps2mouseDecode scancode m = { m with buf := m.buf.set 1 scancode, phase := 3#8 } := by
  simp [ps2mouseDecode, hack, hphase]

theorem decode_third (hphase : m.phase = 3#8) (hack : scancode ≠ 0xfa#8) :
    ps2mouseDecode scancode m =
      { ps2mouseParseThreeBytes { m with buf := m.buf.set 2 scancode } with phase := 1#8 } := by
  simp [ps2mouseDecode, hack, hphase]

/-- An acknowledgement begins a new packet, whatever was being decoded. -/
theorem decode_ack : ps2mouseDecode 0xfa#8 m = { m with phase := 1#8 } := by
  simp [ps2mouseDecode]

/-- Outside the third phase the last movement stays. -/
theorem decode_keeps (hphase : m.phase = 3#8 → scancode = 0xfa#8) :
    (ps2mouseDecode scancode m).x = m.x ∧ (ps2mouseDecode scancode m).y = m.y := by
  by_cases hack : scancode = 0xfa#8
  · subst hack
    rw [decode_ack]
    exact ⟨rfl, rfl⟩
  · have h3 : m.phase ≠ 3#8 := fun h => hack (hphase h)
    unfold ps2mouseDecode
    simp only [hack, if_false, h3]
    split_ifs <;> exact ⟨rfl, rfl⟩

end Decode

namespace Packet

variable {m : MOUSE_DATA_BUNDLE} {p : Packet}

/-- The state byte is taken for the first of a packet. -/
theorem decode_state (hphase : m.phase = 1#8) :
    ps2mouseDecode p.state m = { m with buf := m.buf.set 0 p.state, phase := 2#8 } := by
  obtain ⟨hack, hstate, -⟩ := packetState_spec (decide (p.dx < 0)) (decide (p.dy < 0)) p.btn
  exact decode_first hphase hack hstate

/-- A packet whose bytes are no acknowledgement is decoded. -/
theorem decode_bytes (hphase : m.phase = 1#8) (hp : p.NoAck) :
    (decodeBytes m p.bytes).Holds p ∧ (decodeBytes m p.bytes).phase = 1#8 := by
  have hbytes : decodeBytes m p.bytes =
      ps2mouseDecode p.lowY (ps2mouseDecode p.lowX (ps2mouseDecode p.state m)) := rfl
  rw [hbytes, decode_state hphase, decode_second rfl hp.1, decode_third rfl hp.2]
  obtain ⟨-, -, hx, hy, hbtn⟩ := packetState_spec (decide (p.dx < 0)) (decide (p.dy < 0)) p.btn
  refine ⟨⟨?_, ?_, ?_⟩, rfl⟩
  · refine Eq.trans ?_ (glueTwosComplimentFragment_ofInt p.dx_range)
    simp [ps2mouseParseThreeBytes, state, lowX, hx]
  · refine Eq.trans ?_ (glueTwosComplimentFragment_ofInt p.dy_range)
    simp [ps2mouseParseThreeBytes, state, lowY, hy]
  · refine Eq.trans ?_ hbtn
    simp [ps2mouseParseThreeBytes, state]

/-- A packet with an acknowledgement among its bytes leaves the last movement. -/
theorem bytes_ack (hphase : m.phase = 1#8) (hp : ¬ p.NoAck) :
    (decodeBytes m p.bytes).x = m.x ∧ (decodeBytes m p.bytes).y = m.y := by
  have hbytes : decodeBytes m p.bytes =
      ps2mouseDecode p.lowY (ps2mouseDecode p.lowX (ps2mouseDecode p.state m)) := rfl
  rw [hbytes, decode_state hphase]
  by_cases hx : p.lowX = 0xfa#8
  · rw [hx, decode_ack]
    exact decode_keeps fun h : 1#8 = 3#8 => absurd h (by decide)
  · have hy : p.lowY = 0xfa#8 := by
      by_contra hy
      exact hp ⟨hx, hy⟩
    rw [decode_second rfl hx, hy, decode_ack]
    exact ⟨rfl, rfl⟩

end Packet

/-! ## Runs -/

/-- The decoder, fed one packet at a time. -/
def mouseMachine : Machine MOUSE_DATA_BUNDLE Packet where
  step m p := some (decodeBytes m p.bytes)

/-- The decoder waits for a packet, and the low bytes of the last movement are
no acknowledgement. -/
structure MOUSE_DATA_BUNDLE.Ready (m : MOUSE_DATA_BUNDLE) : Prop where
  phase : m.phase = 1#8
  noAck : ∀ p : Packet, m.x.toInt = p.dx → m.y.toInt = p.dy → p.NoAck

theorem MOUSE_DATA_BUNDLE.Holds.ready {m : MOUSE_DATA_BUNDLE} {p : Packet} (h : m.Holds p)
    (hphase : m.phase = 1#8) (hp : p.NoAck) : m.Ready := by
  refine ⟨hphase, ?_⟩
  intro q hx hy
  have hqx : q.lowX = p.lowX := congrArg (BitVec.ofInt 8) (hx.symm.trans h.1)
  have hqy : q.lowY = p.lowY := congrArg (BitVec.ofInt 8) (hy.symm.trans h.2.1)
  exact ⟨hqx ▸ hp.1, hqy ▸ hp.2⟩

/-- From a bundle whose movement has no such byte, exactly the packets without
one are decoded: a dropped packet leaves the movement before it. -/
theorem MOUSE_DATA_BUNDLE.Ready.always_iff {m : MOUSE_DATA_BUNDLE} (hm : m.Ready)
    (ps : List Packet) :
    mouseMachine.Always (fun m => m.phase = 1#8) (fun _ p m' => m'.Holds p) m ps ↔
      mouseMachine.AllSteps (fun _ p => p.NoAck) m ps := by
  have hall : mouseMachine.AllSteps (fun _ _ => True) m ps :=
    Machine.AllSteps.of_mem fun _ _ _ => trivial
  have hone : ∀ m : MOUSE_DATA_BUNDLE, m.Ready → m.phase = 1#8 := fun _ h => h.phase
  refine Machine.always_iff hone ?_ ?_ hm hall
  · intro m p h _ hp
    obtain ⟨hholds, hone⟩ := Packet.decode_bytes h.phase hp
    exact ⟨_, rfl, hholds, hholds.ready hone hp⟩
  · intro m p m' h _ hp hstep hholds
    cases hstep
    obtain ⟨hx, hy⟩ := Packet.bytes_ack h.phase hp
    exact absurd (h.noAck p (hx ▸ hholds.1) (hy ▸ hholds.2.1)) hp

/-- Whatever the bundle held before, no packet is lost or misread. -/
def DecodesAll (ps : List Packet) : Prop :=
  ∀ m : MOUSE_DATA_BUNDLE, m.phase = 1#8 →
    mouseMachine.Always (fun m => m.phase = 1#8) (fun _ p m' => m'.Holds p) m ps

/-- The bundle before any movement, once the mouse has acknowledged. -/
def acknowledged : MOUSE_DATA_BUNDLE where
  buf := #v[0, 0, 0]
  phase := 1#8
  x := 0
  y := 0
  btn := 0

theorem acknowledged_ready : acknowledged.Ready := by
  refine ⟨rfl, fun p hx hy => ⟨?_, ?_⟩⟩
  · rw [Packet.lowX, ← hx]
    decide
  · rw [Packet.lowY, ← hy]
    decide

/-- **Round trip of the packets.** From phase 1, each packet of a sequence is in
the bundle after its third byte, with phase 1 again, iff no movement of the
sequence has the low byte 0xfa. -/
theorem ps2mouseDecode_packets_iff (ps : List Packet) :
    DecodesAll ps ↔ ∀ p ∈ ps, p.NoAck := by
  constructor
  · intro h
    have hsteps := (acknowledged_ready.always_iff ps).mp (h acknowledged rfl)
    exact (Machine.AllSteps.iff_mem fun _ _ => ⟨_, rfl⟩).mp hsteps
  · intro h m hphase
    refine Machine.always_of_inv (fun _ hm => hm) ?_ hphase
      (Machine.AllSteps.of_mem fun p hp _ => h p hp)
    intro m p hm hp
    obtain ⟨hholds, hone⟩ := Packet.decode_bytes hm hp
    exact ⟨_, rfl, hholds, hone⟩

/-- Six to the left and nine up: the low byte of -6 is taken for an
acknowledgement, the 9 for the state byte of a next packet, and the bundle
still holds no movement. -/
theorem ps2mouseDecode_minus_six :
    let p : Packet := ⟨-6, 9, 0, by decide, by decide⟩
    p.bytes = [0x18, 0xfa, 0x09] ∧
      decodeBytes acknowledged p.bytes =
        { acknowledged with buf := #v[0x09, 0, 0], phase := 2#8 } := by
  decide

end UnagiOs
