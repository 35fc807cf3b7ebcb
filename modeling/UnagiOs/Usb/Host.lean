import UnagiOs.Usb.Device
import UnagiOs.Usb.Keyboard
import UnagiOs.Usb.PortConfig

/-!
# A device from its address to its reports (usb/device.cpp, usb/classdriver/hid.cpp, xhci.cpp)

When a device has its address, the host asks it for its device descriptor, then for a
configuration, takes a class driver and its endpoints from there, sets the configuration, has the
controller configure the endpoints, and hands over to the class driver. That one selects the boot
protocol and then keeps an interrupt transfer on its endpoint, from which the reports come.

Nothing runs on its own. Each request ends with an event, and the handler of the event issues the
next request: `outstanding` are the transfers that have not ended yet, `commands` the Configure
Endpoint commands. They end in any order, with success or without; the data that a transfer brings
come with the event. `none` stands for a read through a null pointer, an index of -1 and a loop that
does not end. Transfers are taken as a whole here, not as TRBs, and there is memory for the class
driver and the transfer rings.
-/

namespace UnagiOs.Usb

open Xhci (SetupData ConfigPhase)

/-! ## The driver of a HID device -/

/-- `HIDBaseDriver`, without its buffers. -/
structure HIDBaseDriver where
  epInterruptIn : EndpointID
  epInterruptOut : EndpointID
  interfaceIndex : Int
  inPacketSize : Nat
  initializePhase : Nat
  deriving DecidableEq, Repr

/-- What a call does: the driver after it, and what is returned, an error code or whatever the
device answers to a request. -/
structure HIDReaction where
  driver : HIDBaseDriver
  answer : Except Error DriverRequest

namespace HIDBaseDriver

/-- The constructor, as the constructors of the keyboard and the mouse call it. -/
def make (c : ClassDriver) : HIDBaseDriver where
  epInterruptIn := ⟨0⟩
  epInterruptOut := ⟨0⟩
  interfaceIndex := c.interfaceNumber.toNat
  inPacketSize := match c.kind with
    | .keyboard => 8
    | .mouse => 3
  initializePhase := 0

variable (d : HIDBaseDriver)

/-- `SetEndpoint` -/
def setEndpoint (config : EndpointConfig) : HIDBaseDriver :=
  if config.epType = .kInterrupt ∧ config.epId.isIn then { d with epInterruptIn := config.epId }
  else if config.epType = .kInterrupt ∧ ¬ config.epId.isIn then
    { d with epInterruptOut := config.epId }
  else d

/-- `OnEndpointsConfigured` -/
def onEndpointsConfigured : HIDReaction :=
  ⟨{ d with initializePhase := 1 }, .ok (.setProtocol d.interfaceIndex)⟩

/-- `OnControlCompleted` -/
def onControlCompleted : HIDReaction :=
  if d.initializePhase = 1 then
    ⟨{ d with initializePhase := 2 }, .ok (.interruptIn d.epInterruptIn d.inPacketSize)⟩
  else ⟨d, .error .kNotImplemented⟩

/-- `OnInterruptCompleted`, but for what `OnDataReceived` does with the report. -/
def onInterruptCompleted (epId : EndpointID) : HIDReaction :=
  if epId.isIn then ⟨d, .ok (.interruptIn d.epInterruptIn d.inPacketSize)⟩
  else ⟨d, .error .kNotImplemented⟩

end HIDBaseDriver

/-! ## Requests -/

/-- The setup data of `GetDescriptor`. -/
def getDescriptorSetup (descType descIndex : BitVec 8) (len : Nat) : SetupData :=
  ⟨0x80, 6, descType ++ descIndex, 0, BitVec.ofNat 16 len⟩

/-- The setup data of `SetConfiguration`. -/
def setConfigurationSetup (configValue : UInt8) : SetupData :=
  ⟨0, 9, configValue.toBitVec.setWidth 16, 0, 0⟩

/-- The setup data for the boot protocol. -/
def setProtocolSetup (interfaceIndex : Int) : SetupData :=
  ⟨0x21, 11, 0, BitVec.ofInt 16 interfaceIndex, 0⟩

/-- The size of `buf_`. -/
def kDeviceBufferSize : Nat := 256

/-- A transfer that has not ended. -/
inductive Transfer where
  /-- on the default control pipe, with or without a data stage -/
  | control (setup : SetupData) (buffered : Bool)
  | interruptIn (epId : EndpointID) (len : Nat)
  deriving DecidableEq, Repr

def Transfer.isInterrupt : Transfer → Bool
  | .control _ _ => false
  | .interruptIn _ _ => true

/-- `xhci::Device` and its port, with the objects that the class drivers of the device are. -/
structure Host where
  /-- `port_config_phase` of the port -/
  portPhase : ConfigPhase
  portSpeed : Nat
  isInitialized : Bool
  device : Device
  eventWaiters : ArrayMap SetupData ClassDriver 4
  drivers : ClassDriver → HIDBaseDriver
  /-- `transfer_rings_[i] != nullptr` -/
  transferRings : Nat → Bool
  outstanding : List Transfer
  /-- Configure Endpoint commands on the command ring -/
  commands : Nat

namespace Host

variable (h : Host)

/-- `ControlIn` and `ControlOut` on the default control pipe, whose ring has index 0. -/
def control (setup : SetupData) (buffered : Bool) (issuer : Option ClassDriver) : Host × Error :=
  let h := match issuer with
    | none => h
    | some c => { h with eventWaiters := h.eventWaiters.put setup c }
  if h.transferRings 0 then
    ({ h with outstanding := h.outstanding ++ [.control setup buffered] }, .kSuccess)
  else (h, .kTransferRingNotSet)

/-- `InterruptIn`. The address 0 is index -1. -/
def interruptIn (epId : EndpointID) (len : Nat) : Option (Host × Error) :=
  if epId.addr = 0 then none
  else if h.transferRings (epId.addr - 1) then
    some ({ h with outstanding := h.outstanding ++ [.interruptIn epId len] }, .kSuccess)
  else some (h, .kTransferRingNotSet)

/-- A class driver is called: it changes and asks its device for something. -/
def call (c : ClassDriver) (reaction : HIDReaction) : Option (Host × Error) :=
  let h := { h with drivers := Function.update h.drivers c reaction.driver }
  match reaction.answer with
  | .error e => some (h, e)
  | .ok (.setProtocol i) => some (h.control (setProtocolSetup i) false (some c))
  | .ok (.interruptIn epId len) => h.interruptIn epId len

/-! ### Initialization -/

/-- `StartInitialize` -/
def startInitialize : Host × Error :=
  { h with isInitialized := false, device := { h.device with initializePhase := 1 } }.control
    (getDescriptorSetup 1 0 kDeviceBufferSize) true none

/-- `InitializePhase1`. The number of configurations is noted and never read. -/
def initializePhase1 : Host × Error :=
  { h with device := { h.device with initializePhase := 2 } }.control
    (getDescriptorSetup 2 0 kDeviceBufferSize) true none

/-- `InitializePhase2`, which goes through its loops `rounds` times. -/
def initializePhase2 (buf : Nat → UInt8) (len : Int) (rounds : Nat) : Option (Host × Error) :=
  match phase2 buf len h.device rounds with
  | .returned dev (.error e) => some ({ h with device := dev }, e)
  | .returned dev (.setConfiguration value) =>
    some ({ h with device := dev }.control (setConfigurationSetup value) false none)
  | _ => none

/-- `class_drivers_[ep_configs_[i].ep_id.Number()]->SetEndpoint(ep_configs_[i])` -/
def setEndpoint (config : EndpointConfig) : Option Host :=
  (h.device.classDrivers config.epId.number).map fun c =>
    { h with drivers := Function.update h.drivers c ((h.drivers c).setEndpoint config) }

/-- `InitializePhase3` -/
def initializePhase3 : Option (Host × Error) :=
  ((slots h.device.epConfigs h.device.numEpConfigs).foldlM setEndpoint h).map fun h =>
    ({ h with isInitialized := true, device := { h.device with initializePhase := 4 } }, .kSuccess)

/-- `usb::Device::OnControlCompleted`; a transfer without a data stage has no buffer. -/
def onControlCompleted (setup : SetupData) (buffered : Bool) (buf : Nat → UInt8) (len : Int)
    (rounds : Nat) : Option (Host × Error) :=
  if h.isInitialized then
    match h.eventWaiters.get setup with
    | some c => h.call c (h.drivers c).onControlCompleted
    | none => some (h, .kNoWaiter)
  else if h.device.initializePhase = 1 then
    if setup.request = 6 then
      if buffered then
        if buf 1 = 1 then some h.initializePhase1 else some (h, .kInvalidPhase)
      else none
    else some (h, .kInvalidPhase)
  else if h.device.initializePhase = 2 then
    if setup.request = 6 then
      if buffered then
        if buf 1 = configurationType then h.initializePhase2 buf len rounds
        else some (h, .kInvalidPhase)
      else none
    else some (h, .kInvalidPhase)
  else if h.device.initializePhase = 3 then
    if setup.request = 9 then h.initializePhase3 else some (h, .kInvalidPhase)
  else some (h, .kNotImplemented)

/-- `usb::Device::OnInterruptCompleted` -/
def onInterruptCompleted (epId : EndpointID) : Option (Host × Error) :=
  match h.device.classDrivers epId.number with
  | some c => h.call c ((h.drivers c).onInterruptCompleted epId)
  | none => some (h, .kNoWaiter)

/-! ### Events -/

/-- `AllocTransferRing` for an endpoint; the address 0 is index -1. -/
def allocTransferRing (config : EndpointConfig) : Option Host :=
  if config.epId.addr = 0 then none
  else some { h with transferRings := setSlot h.transferRings (config.epId.addr - 1) true }

/-- `ConfigureEndpoints` -/
def configureEndpoints : Option (Host × Error) :=
  if h.portSpeed = 0 ∨ h.portSpeed > Xhci.kSuperSpeedPlus then some (h, .kUnknownXHCISpeedID)
  else
    ((slots h.device.epConfigs h.device.numEpConfigs).foldlM allocTransferRing h).map fun h =>
      ({ h with portPhase := .kConfiguringEndpoints, commands := h.commands + 1 }, .kSuccess)

/-- `OnTransferEventReceived`, of a transfer that is taken off the list. -/
def onTransferEventReceived (t : Transfer) (completes : Bool) (buf : Nat → UInt8) (len : Int)
    (rounds : Nat) : Option (Host × Error) :=
  if !completes then some (h, .kTransferFailed)
  else
    match t with
    | .interruptIn epId _ => h.onInterruptCompleted epId
    | .control setup buffered => h.onControlCompleted setup buffered buf len rounds

/-- `OnEvent(TransferEventTRB)`, with the answer of `OnTransferEventReceived`. -/
def afterTransfer (err : Error) : Option Host :=
  if err ≠ .kSuccess then some h
  else if h.isInitialized ∧ h.portPhase = .kInitializingDevice then
    h.configureEndpoints.map Prod.fst
  else some h

/-- `OnEvent(TransferEventTRB)` for the transfer at place `i` -/
def onTransferEvent (i : Nat) (completes : Bool) (buf : Nat → UInt8) (len : Int) (rounds : Nat) :
    Option Host :=
  h.outstanding[i]?.bind fun t =>
    ({ h with outstanding := h.outstanding.eraseIdx i }.onTransferEventReceived t completes buf len
      rounds).bind fun r => r.1.afterTransfer r.2

/-- A round of the loop of `OnEndpointsConfigured`, which ends with the first error. -/
def endpointsConfiguredRound (r : Host × Error) (number : Nat) : Option (Host × Error) :=
  if r.2 ≠ .kSuccess then some r
  else
    match r.1.device.classDrivers number with
    | some c => r.1.call c (r.1.drivers c).onEndpointsConfigured
    | none => some r

/-- `OnEndpointsConfigured` -/
def onEndpointsConfigured : Option (Host × Error) :=
  (List.range 16).foldlM endpointsConfiguredRound (h, .kSuccess)

/-- `OnEvent(CommandCompletionEventTRB)` of a Configure Endpoint command, whatever its completion
code; `CompleteConfiguration` does not look at the error. -/
def onCommandCompletion : Option Host :=
  if h.commands = 0 then none
  else
    let h := { h with commands := h.commands - 1 }
    if h.portPhase ≠ .kConfiguringEndpoints then some h
    else h.onEndpointsConfigured.map fun r => { r.1 with portPhase := .kConfigured }

end Host

/-- What the controller reports. -/
inductive HostEvent where
  /-- The transfer at a place ends: with success or a short packet, or not. -/
  | transfer (i : Nat) (completes : Bool) (buf : Nat → UInt8) (len : Int) (rounds : Nat)
  | commandCompletion

def Host.step (h : Host) : HostEvent → Option Host
  | .transfer i completes buf len rounds => h.onTransferEvent i completes buf len rounds
  | .commandCompletion => h.onCommandCompletion

def hostMachine : Machine Host HostEvent := ⟨Host.step⟩

/-- `InitializeDevice`, for a device that `AddressDevice` has just set up: there is a ring for the
default control pipe only. -/
def Host.initializeDevice (portSpeed : Nat) : Host :=
  ({ portPhase := .kInitializingDevice
     portSpeed
     isInitialized := false
     device := ⟨fun _ => none, fun _ => ⟨⟨0⟩, .kControl, 0, 0⟩, 0, 0⟩
     eventWaiters := .empty
     drivers := HIDBaseDriver.make
     transferRings := fun i => i == 0
     outstanding := []
     commands := 0 } : Host).startInitialize.1

end UnagiOs.Usb
