import UnagiOs.Usb.ArrayMap
import UnagiOs.Usb.Ring

/-!
# Control transfers of a device (usb/device.cpp, usb/xhci/device.cpp)

A class driver asks a device for a control transfer with `ControlIn` or `ControlOut`. The request
becomes two or three TRBs on a transfer ring: setup, data if there is a buffer, status. One of
them asks for an interrupt, and the transfer event that it causes brings only the address of that
TRB. Two maps lead back from there:

- `setup_stage_map_` from the address of the TRB to the setup TRB of its request, where the setup
  data stands;
- `event_waiters_` from the setup data to the class driver.

A pointer to a TRB is its ring and its place in the ring; the buffers of two rings do not meet.
`none` stands for a read outside the rings or through a null pointer. The doorbell and the log are
left out.
-/

namespace UnagiOs.Xhci

/-! ## Stages -/

structure SetupData where
  requestType : BitVec 8
  request : BitVec 8
  value : BitVec 16
  index : BitVec 16
  length : BitVec 16
  deriving DecidableEq, Repr

/-- The constants of `SetupStageTRB`. -/
inductive TransferType where
  | kNoDataStage
  | kOutDataStage
  | kInDataStage
  deriving DecidableEq, Repr

def TransferType.code : TransferType → BitVec 32
  | kNoDataStage => 0
  | kOutDataStage => 2
  | kInDataStage => 3

namespace TRB

def normalType : BitVec 6 := 1

def setupStageType : BitVec 6 := 2

def dataStageType : BitVec 6 := 3

def statusStageType : BitVec 6 := 4

/-- A bit field of one bit in the last word. -/
def flag (i : Nat) (b : Bool) : BitVec 32 := if b then 1#32 <<< i else 0

/-- The last word of a TRB of a type. -/
def typeWord (type : BitVec 6) : BitVec 32 := type.setWidth 32 <<< 10

/-- `MakeSetupStageTRB`. The constructor sets the type, `immediate_data` and a transfer length of
eight. -/
def makeSetupStage (s : SetupData) (transferType : TransferType) : TRB where
  d0 := s.value ++ s.request ++ s.requestType
  d1 := s.length ++ s.index
  d2 := 8
  d3 := typeWord setupStageType ||| flag 6 true ||| transferType.code <<< 16

/-- `MakeDataStageTRB`; the transfer length has 17 bits. -/
def makeDataStage (buf : BitVec 64) (len : Int) (dirIn : Bool) : TRB where
  d0 := buf.setWidth 32
  d1 := (buf >>> 32).setWidth 32
  d2 := (BitVec.ofInt 17 len).setWidth 32
  d3 := typeWord dataStageType ||| flag 16 dirIn

/-- `StatusStageTRB{}` with its `direction`. -/
def statusStage (direction : Bool) : TRB where
  d0 := 0
  d1 := 0
  d2 := 0
  d3 := typeWord statusStageType ||| flag 16 direction

/-- `bits.interrupt_on_completion = true` -/
def interruptOnCompletion (t : TRB) : TRB := { t with d3 := t.d3 ||| flag 5 true }

/-- `DataStageTRB::Pointer` and `NormalTRB::Pointer`. -/
def bufferPointer (t : TRB) : BitVec 64 := t.d1 ++ t.d0

/-- `trb_transfer_length` of a data stage or a normal TRB. -/
def transferLength (t : TRB) : BitVec 17 := t.d2.extractLsb' 0 17

/-- What `OnTransferEventReceived` copies from a setup TRB. -/
def setupData (t : TRB) : SetupData where
  requestType := t.d0.extractLsb' 0 8
  request := t.d0.extractLsb' 8 8
  value := t.d0.extractLsb' 16 16
  index := t.d1.extractLsb' 0 16
  length := t.d1.extractLsb' 16 16

/-- The setup data can be read back; the ring only sets the cycle bit. -/
theorem setupData_makeSetupStage (s : SetupData) (transferType : TransferType) (b : Bool) :
    ((makeSetupStage s transferType).setCycle b).setupData = s := by
  -- the fields of the two words, from the low bits on
  have hrequestType : (s.value ++ s.request ++ s.requestType).extractLsb' 0 8 = s.requestType :=
    BitVec.extractLsb'_append_eq_right
  have hrequest : (s.value ++ s.request ++ s.requestType).extractLsb' 8 8 = s.request :=
    (BitVec.extractLsb'_append_eq_of_le (Nat.le_refl 8)).trans BitVec.extractLsb'_append_eq_right
  have hvalue : (s.value ++ s.request ++ s.requestType).extractLsb' 16 16 = s.value :=
    (BitVec.extractLsb'_append_eq_of_le (by decide)).trans BitVec.extractLsb'_append_eq_left
  have hindex : (s.length ++ s.index).extractLsb' 0 16 = s.index :=
    BitVec.extractLsb'_append_eq_right
  have hlength : (s.length ++ s.index).extractLsb' 16 16 = s.length :=
    BitVec.extractLsb'_append_eq_left
  calc ((makeSetupStage s transferType).setCycle b).setupData
    _ = ⟨(s.value ++ s.request ++ s.requestType).extractLsb' 0 8,
          (s.value ++ s.request ++ s.requestType).extractLsb' 8 8,
          (s.value ++ s.request ++ s.requestType).extractLsb' 16 16,
          (s.length ++ s.index).extractLsb' 0 16,
          (s.length ++ s.index).extractLsb' 16 16⟩ := rfl
    _ = s := by rw [hrequestType, hrequest, hvalue, hindex, hlength]

/-- The TRBs of the stages keep their types, whatever their other fields are. -/
theorem trbType_makeSetupStage (s : SetupData) (transferType : TransferType) :
    (makeSetupStage s transferType).trbType = setupStageType := by
  show (typeWord setupStageType ||| flag 6 true ||| transferType.code <<< 16).extractLsb' 10 6 = _
  cases transferType with
  | kNoDataStage => decide
  | kOutDataStage => decide
  | kInDataStage => decide

theorem trbType_makeDataStage (buf : BitVec 64) (len : Int) (dirIn : Bool) :
    (makeDataStage buf len dirIn).interruptOnCompletion.trbType = dataStageType := by
  show (typeWord dataStageType ||| flag 16 dirIn ||| flag 5 true).extractLsb' 10 6 = _
  revert dirIn
  decide

theorem trbType_statusStage (direction : Bool) :
    (statusStage direction).interruptOnCompletion.trbType = statusStageType := by
  revert direction
  decide

end TRB

/-! ## A whole push -/

namespace Ring

/-- `Push`, all its stores. -/
def enqueue (ring : Ring) (data : TRB) : Ring := (ring.push data).foldl exec ring

/-- The place after a place: the last slot is the Link TRB's. -/
def nextIndex (bufSize i : Nat) : Nat := if i + 1 = bufSize - 1 then 0 else i + 1

/-- The place of the next TRB lies before the Link TRB. -/
def InUse (ring : Ring) : Prop := ring.writeIndex + 1 < ring.bufSize

variable {ring : Ring} {data : TRB} {i j B : Nat}

/-- No place is that of the Link TRB. -/
theorem nextIndex_lt (hi : i + 1 < B) : nextIndex B i + 1 < B := by
  unfold nextIndex
  split
  · omega
  · omega

theorem nextIndex_inj (h : nextIndex B i = nextIndex B j) : i = j := by
  unfold nextIndex at h
  split at h
  · split at h
    · omega
    · omega
  · split at h
    · omega
    · omega

/-- The four stores of `CopyToLast` write one TRB. -/
theorem foldl_copyToLast (ring : Ring) (data : TRB) :
    (copyToLast data).foldl exec ring =
      { ring with buf := setSlot ring.buf ring.writeIndex (data.setCycle ring.cycleBit) } := by
  have hstores : (copyToLast data).foldl exec ring = { ring with
      buf := fun j =>
        if j = ring.writeIndex then data.setCycle ring.cycleBit else ring.buf j } := by
    simp only [copyToLast, List.foldl_cons, List.foldl_nil, exec, TRB.setWord, setSlot, if_true]
    congr 1
    funext j
    simp only [setSlot]
    split
    · rfl
    · rfl
  exact hstores

/-- A push: the TRB, and behind the last place the Link TRB and a turn of the cycle bit. -/
theorem enqueue_eq (ring : Ring) (data : TRB) :
    ring.enqueue data =
      let written := setSlot ring.buf ring.writeIndex (data.setCycle ring.cycleBit)
      if ring.writeIndex + 1 = ring.bufSize - 1 then
        { ring with
          buf := setSlot written (ring.writeIndex + 1) ((TRB.link ring.base).setCycle ring.cycleBit)
          writeIndex := 0
          cycleBit := !ring.cycleBit }
      else
        { ring with buf := written, writeIndex := ring.writeIndex + 1 } := by
  rw [enqueue, push, List.foldl_append, foldl_copyToLast, List.foldl_cons]
  split
  · rw [List.foldl_append, foldl_copyToLast]
    rfl
  · rfl

@[simp] theorem bufSize_enqueue : (ring.enqueue data).bufSize = ring.bufSize := by
  rw [enqueue_eq]
  dsimp only
  split
  · rfl
  · rfl

/-- The write index goes on to the next place. -/
theorem writeIndex_enqueue :
    (ring.enqueue data).writeIndex = nextIndex ring.bufSize ring.writeIndex := by
  rw [enqueue_eq, nextIndex]
  dsimp only
  split
  · rfl
  · rfl

theorem InUse.enqueue (h : ring.InUse) : (ring.enqueue data).InUse := by
  rw [InUse, writeIndex_enqueue, bufSize_enqueue]
  exact nextIndex_lt h

/-- The slots before the Link TRB: one is written. -/
theorem buf_enqueue (hi : i + 1 < ring.bufSize) :
    (ring.enqueue data).buf i =
      if i = ring.writeIndex then data.setCycle ring.cycleBit else ring.buf i := by
  rw [enqueue_eq]
  dsimp only
  split
  · next hlast =>
    -- the Link TRB goes into the slot behind the last place
    have hlink : i ≠ ring.writeIndex + 1 := by omega
    exact if_neg hlink
  · rfl

/-- Several pushes. -/
def enqueueAll (ring : Ring) (ts : List TRB) : Ring := ts.foldl enqueue ring

/-- The places of the next `k` TRBs from a place on. -/
def places (bufSize : Nat) : Nat → Nat → List Nat
  | 0, _ => []
  | k + 1, i => i :: places bufSize k (nextIndex bufSize i)

variable {t : TRB} {ts : List TRB}

@[simp] theorem enqueueAll_nil : ring.enqueueAll [] = ring := rfl

@[simp] theorem enqueueAll_cons : ring.enqueueAll (t :: ts) = (ring.enqueue t).enqueueAll ts := rfl

@[simp] theorem bufSize_enqueueAll : (ring.enqueueAll ts).bufSize = ring.bufSize := by
  induction ts generalizing ring with
  | nil => rfl
  | cons t ts ih => exact ih.trans bufSize_enqueue

theorem InUse.enqueueAll (h : ring.InUse) : (ring.enqueueAll ts).InUse := by
  induction ts generalizing ring with
  | nil => exact h
  | cons t ts ih => exact ih h.enqueue

/-- Several pushes leave alone what is not at their places. -/
theorem enqueueAll_off (hi : i + 1 < ring.bufSize)
    (hoff : i ∉ places ring.bufSize ts.length ring.writeIndex) :
    (ring.enqueueAll ts).buf i = ring.buf i := by
  induction ts generalizing ring with
  | nil => rfl
  | cons t ts ih =>
    rw [List.length_cons, places, List.mem_cons, not_or] at hoff
    -- neither the later pushes nor the first one write here
    have hrest : ((ring.enqueue t).enqueueAll ts).buf i = (ring.enqueue t).buf i := by
      apply ih
      · rw [bufSize_enqueue]
        exact hi
      · rw [bufSize_enqueue, writeIndex_enqueue]
        exact hoff.2
    exact hrest.trans ((buf_enqueue hi).trans (if_neg hoff.1))

/-- The first of several TRBs is where the write index was. -/
theorem enqueueAll_head (h : ring.InUse)
    (hnodup : (places ring.bufSize (t :: ts).length ring.writeIndex).Nodup) :
    (ring.enqueueAll (t :: ts)).buf ring.writeIndex = t.setCycle ring.cycleBit := by
  rw [List.length_cons, places, List.nodup_cons] at hnodup
  have hrest : ((ring.enqueue t).enqueueAll ts).buf ring.writeIndex =
      (ring.enqueue t).buf ring.writeIndex := by
    apply enqueueAll_off
    · rw [bufSize_enqueue]
      exact h
    · rw [bufSize_enqueue, writeIndex_enqueue]
      exact hnodup.1
  exact hrest.trans ((buf_enqueue h).trans (if_pos rfl))

end Ring

/-! ## The device -/

/-- Where a TRB lies. -/
structure TrbPtr where
  ring : Nat
  index : Nat
  deriving DecidableEq, Repr

/-- `usb::xhci::Device` with what it inherits from `usb::Device`; `D` are the class drivers. -/
structure Device (D : Type) where
  /-- index = dci - 1 -/
  transferRings : Nat → Option Ring
  setupStageMap : ArrayMap TrbPtr (Option TrbPtr) 16
  eventWaiters : ArrayMap SetupData D 4
  /-- by endpoint number -/
  classDrivers : Nat → Option D
  isInitialized : Bool

/-- The arguments of `ControlIn` and `ControlOut` but for the issuer; `ep` is the address in
`EndpointID`, and a null `buf` is zero. -/
structure ControlRequest where
  ep : Int
  setup : SetupData
  buf : BitVec 64
  len : Int
  deriving DecidableEq, Repr

/-- What tells `ControlIn` from `ControlOut`. -/
structure ControlStages where
  /-- the transfer type of a request with a data stage -/
  withData : TransferType
  dataIn : Bool
  /-- the direction of the status stage after a data stage -/
  statusIn : Bool
  deriving DecidableEq, Repr

structure TransferEvent where
  pointer : TrbPtr
  transferLength : BitVec 24
  completionCode : BitVec 8
  endpointId : BitVec 5
  deriving DecidableEq, Repr

/-- What a transfer event leads to. -/
inductive Outcome (D : Type) where
  | error (e : Error)
  /-- `OnControlCompleted` of a class driver -/
  | controlCompleted (driver : D) (ep : Int) (setup : SetupData) (buf : BitVec 64) (len : Int)
  /-- `OnInterruptCompleted` of a class driver -/
  | interruptCompleted (driver : D) (ep : Int) (buf : BitVec 64) (len : Int)
  /-- The device is not initialized: the phases of its initialization take over. -/
  | initialization (ep : Int) (setup : SetupData) (buf : BitVec 64) (len : Int)
  deriving DecidableEq, Repr

namespace TransferEvent

/-- The residual length. -/
def residual (e : TransferEvent) : Int := e.transferLength.toNat

def ep (e : TransferEvent) : Int := e.endpointId.toNat

/-- Success or Short Packet. -/
def Completes (e : TransferEvent) : Prop := e.completionCode = 1 ∨ e.completionCode = 13
  deriving Decidable

end TransferEvent

/-- `EndpointID::Number`. -/
def endpointNumber (ep : Int) : Int := ep / 2

namespace Device

variable {D : Type}

/-- The TRB under a pointer. -/
def trb (dev : Device D) (p : TrbPtr) : Option TRB :=
  match dev.transferRings p.ring with
  | none => none
  | some tr => if p.index < tr.bufSize then some (tr.buf p.index) else none

/-! ### Requests -/

/-- `ControlIn` and `ControlOut` of `usb::Device`. -/
def register (dev : Device D) (setup : SetupData) : Option D → Device D
  | none => dev
  | some issuer => { dev with eventWaiters := dev.eventWaiters.put setup issuer }

/-- The transfer ring of an endpoint, with its index. The address 0 would be index -1. -/
def transferRing (dev : Device D) (ep : Int) : Option (Except Error (Nat × Ring)) :=
  if endpointNumber ep < 0 ∨ 15 < endpointNumber ep then some (.error .kInvalidEndpointNumber)
  else if ep = 0 then none
  else
    match dev.transferRings (ep - 1).toNat with
    | none => some (.error .kTransferRingNotSet)
    | some tr => some (.ok ((ep - 1).toNat, tr))

/-- `TRBDynamicCast<SetupStageTRB>` of the TRB at a place. -/
def castSetupStage (i : Nat) (tr : Ring) (index : Nat) : Option TrbPtr :=
  if (tr.buf index).trbType = TRB.setupStageType then some ⟨i, index⟩ else none

/-- The stages of a request are pushed, and the one that causes the event is noted. -/
def pushStages (dev : Device D) (stages : ControlStages) (i : Nat) (tr : Ring)
    (req : ControlRequest) : Device D :=
  if req.buf ≠ 0 then
    let afterSetup := tr.enqueue (.makeSetupStage req.setup stages.withData)
    let setupPosition := castSetupStage i afterSetup tr.writeIndex
    let afterData := afterSetup.enqueue
      (TRB.makeDataStage req.buf req.len stages.dataIn).interruptOnCompletion
    let afterStatus := afterData.enqueue (.statusStage stages.statusIn)
    { dev with
      transferRings := setSlot dev.transferRings i (some afterStatus)
      setupStageMap := dev.setupStageMap.put ⟨i, afterSetup.writeIndex⟩ setupPosition }
  else
    let afterSetup := tr.enqueue (.makeSetupStage req.setup .kNoDataStage)
    let setupPosition := castSetupStage i afterSetup tr.writeIndex
    let afterStatus := afterSetup.enqueue (TRB.statusStage true).interruptOnCompletion
    { dev with
      transferRings := setSlot dev.transferRings i (some afterStatus)
      setupStageMap := dev.setupStageMap.put ⟨i, afterSetup.writeIndex⟩ setupPosition }

/-- The common body of `ControlIn` and `ControlOut`. -/
def control (stages : ControlStages) (dev : Device D) (req : ControlRequest)
    (issuer : Option D) : Option (Device D × Error) :=
  let dev := dev.register req.setup issuer
  match dev.transferRing req.ep with
  | none => none
  | some (.error e) => some (dev, e)
  | some (.ok (i, tr)) => some (dev.pushStages stages i tr req, .kSuccess)

def controlIn (dev : Device D) (req : ControlRequest) (issuer : Option D) :
    Option (Device D × Error) :=
  dev.control ⟨.kInDataStage, true, false⟩ req issuer

def controlOut (dev : Device D) (req : ControlRequest) (issuer : Option D) :
    Option (Device D × Error) :=
  dev.control ⟨.kOutDataStage, false, true⟩ req issuer

/-! ### Events -/

def onControlCompleted (dev : Device D) (ep : Int) (setup : SetupData) (buf : BitVec 64)
    (len : Int) : Outcome D :=
  if dev.isInitialized then
    match dev.eventWaiters.get setup with
    | some w => .controlCompleted w ep setup buf len
    | none => .error .kNoWaiter
  else
    .initialization ep setup buf len

def onInterruptCompleted (dev : Device D) (ep : Int) (buf : BitVec 64) (len : Int) : Outcome D :=
  match dev.classDrivers (endpointNumber ep).toNat with
  | some w => .interruptCompleted w ep buf len
  | none => .error .kNoWaiter

/-- The end of `OnTransferEventReceived`, with the setup TRB found. -/
def completeControl (dev : Device D) (e : TransferEvent) (issuerTrb setupTrb : TRB) : Outcome D :=
  if issuerTrb.trbType = TRB.dataStageType then
    dev.onControlCompleted e.ep setupTrb.setupData issuerTrb.bufferPointer
      (issuerTrb.transferLength.toNat - e.residual)
  else if issuerTrb.trbType = TRB.statusStageType then
    dev.onControlCompleted e.ep setupTrb.setupData 0 0
  else
    .error .kNotImplemented

def onTransferEventReceived (dev : Device D) (e : TransferEvent) :
    Option (Device D × Outcome D) :=
  if ¬ e.Completes then some (dev, .error .kTransferFailed)
  else
    (dev.trb e.pointer).bind fun issuerTrb =>
      if issuerTrb.trbType = TRB.normalType then
        some (dev, dev.onInterruptCompleted e.ep issuerTrb.bufferPointer
          (issuerTrb.transferLength.toNat - e.residual))
      else
        match dev.setupStageMap.get e.pointer with
        | none => some (dev, .error .kNoCorrespondingSetupStage)
        | some setupStage =>
          let dev := { dev with setupStageMap := dev.setupStageMap.delete e.pointer }
          (setupStage.bind dev.trb).map fun setupTrb =>
            (dev, dev.completeControl e issuerTrb setupTrb)

end Device

end UnagiOs.Xhci
