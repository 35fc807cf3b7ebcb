import Mathlib.Algebra.GroupWithZero.Nat
import Mathlib.Logic.Function.Basic
import UnagiOs.Theory.Slots
import UnagiOs.Util.Error

/-!
# Port configuration

The handlers of `xhci.cpp` that take a port from the connection of a device to its
configuration. Between the reset of a port and the assignment of an address no
other port may be reset; `addressing_port` is the port whose turn it is, and ports
that come in between wait in phase `kWaitingAddressed`.

Port registers and the device contexts belong to the controller: the registers
change between events (`ports`), and what a handler reads from a device context or
hears from a class driver is an argument of the event. The commands that the
handlers push are kept in a list. The contents of the input contexts are left out,
and so is the memory of devices and transfer rings, which is taken to suffice.
-/

namespace UnagiOs.Xhci

/-- Port 0 is no port: `addressing_port` is 0 while nobody has the turn. -/
instance neZeroPorts : NeZero 256 := ⟨by decide⟩

inductive ConfigPhase where
  | kNotConnected
  | kWaitingAddressed
  | kResettingPort
  | kEnablingSlot
  | kAddressingDevice
  | kInitializingDevice
  | kConfiguringEndpoints
  | kConfigured
  deriving DecidableEq, Repr

/-- The bits of PORTSC that the handlers read. -/
structure PortStatus where
  isConnected : Bool
  isEnabled : Bool
  isPortResetChanged : Bool
  speed : Nat
  deriving DecidableEq, Repr

/-- The commands that the handlers push on the command ring. -/
inductive Command where
  | enableSlot
  | addressDevice (slotId : Nat)
  | configureEndpoint (slotId : Nat)
  deriving DecidableEq, Repr

/-- `trb_type` of the TRB that a command completion event points to. -/
inductive IssuerType where
  | enableSlotCommand
  | addressDeviceCommand
  | configureEndpointCommand
  | other (type : Nat)
  deriving DecidableEq, Repr

/-- The controller with the two variables of the configuration, indexed by the
`uint8_t` port number. -/
structure Controller where
  portConfigPhase : Fin 256 → ConfigPhase
  addressingPort : Fin 256
  ports : Fin 256 → PortStatus
  maxSlots : Nat
  /-- `devices_[slot_id] != nullptr` -/
  devices : Nat → Bool
  commandRing : List Command

def kSuperSpeedPlus : Nat := 5

namespace Controller

def setPhase (xhc : Controller) (port : Fin 256) (phase : ConfigPhase) : Controller :=
  { xhc with portConfigPhase := Function.update xhc.portConfigPhase port phase }

/-- `CommandRing()->Push(cmd); DoorbellRegisterAt(0)->Ring(0);` -/
def issue (xhc : Controller) (cmd : Command) : Controller :=
  { xhc with commandRing := xhc.commandRing ++ [cmd] }

/-- `DeviceManager::FindBySlot(slot_id) != nullptr` -/
def findBySlot (xhc : Controller) (slotId : Nat) : Bool :=
  if slotId > xhc.maxSlots then false else xhc.devices slotId

def allocDevice (xhc : Controller) (slotId : Nat) : Controller × Error :=
  if slotId > xhc.maxSlots then (xhc, .kInvalidSlotID)
  else if xhc.devices slotId then (xhc, .kAlreadyAllocated)
  else ({ xhc with devices := setSlot xhc.devices slotId true }, .kSuccess)

def resetPort (xhc : Controller) (port : Fin 256) : Controller × Error :=
  if !(xhc.ports port).isConnected then (xhc, .kSuccess)
  else if xhc.addressingPort ≠ 0 then (xhc.setPhase port .kWaitingAddressed, .kSuccess)
  else if xhc.portConfigPhase port ≠ .kNotConnected ∧
      xhc.portConfigPhase port ≠ .kWaitingAddressed then
    (xhc, .kInvalidPhase)
  else ({ xhc with addressingPort := port }.setPhase port .kResettingPort, .kSuccess)

def enableSlot (xhc : Controller) (port : Fin 256) : Controller × Error :=
  let status := xhc.ports port
  if status.isEnabled && status.isPortResetChanged then
    -- ClearPortResetChange
    let xhc := { xhc with
      ports := Function.update xhc.ports port { status with isPortResetChanged := false } }
    ((xhc.setPhase port .kEnablingSlot).issue .enableSlot, .kSuccess)
  else (xhc, .kSuccess)

/-- The error of `AllocDevice` is not looked at. -/
def addressDevice (xhc : Controller) (portId : Fin 256) (slotId : Nat) : Controller × Error :=
  let xhc := (xhc.allocDevice slotId).1
  if !xhc.findBySlot slotId then (xhc, .kInvalidSlotID)
  else ((xhc.setPhase portId .kAddressingDevice).issue (.addressDevice slotId), .kSuccess)

def initializeDevice (xhc : Controller) (portId : Fin 256) (slotId : Nat) : Controller × Error :=
  if !xhc.findBySlot slotId then (xhc, .kInvalidSlotID)
  else (xhc.setPhase portId .kInitializingDevice, .kSuccess)

def completeConfiguration (xhc : Controller) (portId : Fin 256) (slotId : Nat) :
    Controller × Error :=
  if !xhc.findBySlot slotId then (xhc, .kInvalidSlotID)
  else (xhc.setPhase portId .kConfigured, .kSuccess)

def configureEndpoints (xhc : Controller) (portId : Fin 256) (slotId : Nat) :
    Controller × Error :=
  let portSpeed := (xhc.ports portId).speed
  if portSpeed = 0 ∨ portSpeed > kSuperSpeedPlus then (xhc, .kUnknownXHCISpeedID)
  else ((xhc.setPhase portId .kConfiguringEndpoints).issue (.configureEndpoint slotId), .kSuccess)

def configurePort (xhc : Controller) (port : Fin 256) : Controller × Error :=
  if xhc.portConfigPhase port = .kNotConnected then xhc.resetPort port else (xhc, .kSuccess)

/-- `OnEvent(PortStatusChangeEventTRB)` -/
def onPortStatusChange (xhc : Controller) (portId : Fin 256) : Controller × Error :=
  match xhc.portConfigPhase portId with
  | .kNotConnected => xhc.resetPort portId
  | .kResettingPort => xhc.enableSlot portId
  | _ => (xhc, .kInvalidPhase)

/-- `OnEvent(TransferEventTRB)`: `received` is the answer of `OnTransferEventReceived`,
`portId` the root hub port in the device context. -/
def onTransfer (xhc : Controller) (slotId : Nat) (received : Error) (isInitialized : Bool)
    (portId : Fin 256) : Controller × Error :=
  if !xhc.findBySlot slotId then (xhc, .kInvalidSlotID)
  else if received ≠ .kSuccess then (xhc, received)
  else if isInitialized ∧ xhc.portConfigPhase portId = .kInitializingDevice then
    xhc.configureEndpoints portId slotId
  else (xhc, .kSuccess)

/-- The lowest port that waits for its turn. -/
def firstWaiting (xhc : Controller) : Option (Fin 256) :=
  (List.finRange 256).find? fun i => xhc.portConfigPhase i = .kWaitingAddressed

/-- The loop that looks for a port to address next; it leaves at the first one. -/
def handOver (xhc : Controller) : Controller × Error :=
  match xhc.firstWaiting with
  | some i => xhc.resetPort i
  | none => (xhc, .kSuccess)

/-- `OnEvent(CommandCompletionEventTRB)`: `portId` is the root hub port in the context of
the device at the slot. -/
def onCommandCompletion (xhc : Controller) (issuerType : IssuerType) (slotId : Nat)
    (portId : Fin 256) : Controller × Error :=
  match issuerType with
  | .enableSlotCommand =>
    if xhc.portConfigPhase xhc.addressingPort ≠ .kEnablingSlot then (xhc, .kInvalidPhase)
    else xhc.addressDevice xhc.addressingPort slotId
  | .addressDeviceCommand =>
    if !xhc.findBySlot slotId then (xhc, .kInvalidSlotID)
    else if portId ≠ xhc.addressingPort then (xhc, .kInvalidPhase)
    else if xhc.portConfigPhase portId ≠ .kAddressingDevice then (xhc, .kInvalidPhase)
    else
      let (xhc, err) := { xhc with addressingPort := 0 }.handOver
      if err ≠ .kSuccess then (xhc, err) else xhc.initializeDevice portId slotId
  | .configureEndpointCommand =>
    if !xhc.findBySlot slotId then (xhc, .kInvalidSlotID)
    else if xhc.portConfigPhase portId ≠ .kConfiguringEndpoints then (xhc, .kInvalidPhase)
    else xhc.completeConfiguration portId slotId
  | .other _ => (xhc, .kInvalidPhase)

end Controller

end UnagiOs.Xhci
