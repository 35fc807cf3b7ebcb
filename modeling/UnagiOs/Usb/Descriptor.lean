import UnagiOs.Theory.LengthPrefixed
import UnagiOs.Theory.Slots
import UnagiOs.Util.Error

/-!
# The configuration of a USB device (usb/descriptor.hpp, usb/device.cpp)

A device answers a request for its configuration with a block of descriptors. Each starts with its
length and its type; `ConfigurationDescriptorReader` goes from one to the next by the length.
`InitializePhase2` looks for an interface it has a driver for, takes the endpoint configurations
from the endpoint descriptors behind it, and asks the device to take on the configuration.

The bytes from `buf` on are a function, of which the device has sent the first `len`: what is behind
is whatever the memory holds. `Phase2` is the function at the head of one of its two loops, and
`phase2Step` is a round of the loop. `fault` stands for the two ways to leave the program's own
data: a null pointer that is read through, and a store behind the end of `ep_configs_`.
`touches` lists the casts, the reads and the stores of a round.
-/

namespace UnagiOs.Usb

/-! ## Descriptors -/

/-- `EndpointType`. -/
inductive EndpointType where
  | kControl
  | kIsochronous
  | kBulk
  | kInterrupt
  deriving DecidableEq, Repr

/-- `static_cast<EndpointType>` of a field of two bits. -/
def EndpointType.ofCode (code : Nat) : EndpointType :=
  match code % 4 with
  | 0 => kControl
  | 1 => kIsochronous
  | 2 => kBulk
  | _ => kInterrupt

/-- `EndpointID`. -/
structure EndpointID where
  addr : Nat
  deriving DecidableEq, Repr

/-- `EndpointID(int ep_num, bool dir_in)`. -/
def EndpointID.make (epNum : Nat) (dirIn : Bool) : EndpointID := ⟨epNum <<< 1 ||| dirIn.toNat⟩

/-- `EndpointID::Number`. -/
def EndpointID.number (id : EndpointID) : Nat := id.addr >>> 1

/-- `EndpointConfig`. -/
structure EndpointConfig where
  epId : EndpointID
  epType : EndpointType
  maxPacketSize : Nat
  interval : Nat
  deriving DecidableEq, Repr

/-- The class drivers there are. -/
inductive DriverKind where
  | keyboard
  | mouse
  deriving DecidableEq, Repr

/-- `HIDKeyboardDriver` or `HIDMouseDriver`, for an interface. -/
structure ClassDriver where
  kind : DriverKind
  interfaceNumber : UInt8
  deriving DecidableEq, Repr

/-! The `kType`s of the descriptors that are looked for. -/

def configurationType : UInt8 := 2
def interfaceType : UInt8 := 4
def endpointType : UInt8 := 5
def hidType : UInt8 := 33

section Fields

-- a descriptor by its bytes, as the pointer to it gives them
variable (desc : Nat → UInt8)

/-- `MakeEPConfig`. -/
def makeEPConfig : EndpointConfig :=
  { epId := .make ((desc 2).toNat % 16) ((desc 2).toNat / 128 == 1)
    epType := .ofCode (desc 3).toNat
    maxPacketSize := (desc 4).toNat + 256 * (desc 5).toNat
    interval := (desc 6).toNat }

/-- `NewClassDriver`. -/
def newClassDriver : Option ClassDriver :=
  if desc 5 = 3 ∧ desc 6 = 1 then
    if desc 7 = 1 then some ⟨.keyboard, desc 2⟩
    else if desc 7 = 2 then some ⟨.mouse, desc 2⟩
    else none
  else none

/-- The driver for an interface descriptor. -/
def interfaceDriver : Option ClassDriver :=
  if desc 1 = interfaceType then newClassDriver desc else none

/-- The configuration of an endpoint descriptor. -/
def endpointConfig : Option EndpointConfig :=
  if desc 1 = endpointType then some (makeEPConfig desc) else none

end Fields

/-- The bytes a pointer points to. -/
def bytesAt (b : Nat → UInt8) (p : Nat) : Nat → UInt8 := fun i => b (p + i)

/-! ## The device -/

/-- The members of `usb::Device` that the initialization sets. -/
structure Device where
  classDrivers : Nat → Option ClassDriver
  epConfigs : Nat → EndpointConfig
  numEpConfigs : Nat
  initializePhase : Nat

/-- `ep_configs_[num_ep_configs_] = conf; ++num_ep_configs_;` and
`class_drivers_[conf.ep_id.Number()] = class_driver;`. -/
def Device.addEndpoint (driver : ClassDriver) (dev : Device) (conf : EndpointConfig) : Device :=
  { dev with
    epConfigs := setSlot dev.epConfigs dev.numEpConfigs conf
    numEpConfigs := dev.numEpConfigs + 1
    classDrivers := setSlot dev.classDrivers conf.epId.number (some driver) }

/-- What `InitializePhase2` returns: an error code, or what `SetConfiguration` returns. -/
inductive Answer where
  | error (e : Error)
  | setConfiguration (value : UInt8)
  deriving DecidableEq

/-- `InitializePhase2` at the head of a loop. -/
inductive Phase2 where
  | start (dev : Device)
  /-- `Next<InterfaceDescriptor>`, with `p_`. -/
  | find (p : Nat) (dev : Device)
  /-- The loop over the endpoints of the interface at `iface`. -/
  | collect (p iface : Nat) (driver : ClassDriver) (dev : Device)
  | returned (dev : Device) (answer : Answer)
  | fault

section Machine

variable (b : Nat → UInt8) (len : Int)

/-- `ConfigurationDescriptorReader::Next`, which also leaves `p_` at `hop b p`. -/
def next (p : Nat) : Option Nat := if (hop b p : Int) < len then some (hop b p) else none

/-- A round. -/
def phase2Step : Phase2 → Phase2
  | .start dev =>
    if b 1 = configurationType then .find 0 dev else .returned dev (.error .kInvalidDescriptor)
  | .find p dev =>
    match next b len p with
    | none => .returned dev (.error .kSuccess)
    | some q =>
      if b (q + 1) = interfaceType then
        match newClassDriver (bytesAt b q) with
        | none => .find q dev
        | some driver => .collect q q driver { dev with numEpConfigs := 0 }
      else .find q dev
  | .collect p iface driver dev =>
    if dev.numEpConfigs < (b (iface + 4)).toNat then
      match next b len p with
      | none => .fault
      | some q =>
        if b (q + 1) = endpointType then
          if dev.numEpConfigs < 16 then
            .collect q iface driver (dev.addEndpoint driver (makeEPConfig (bytesAt b q)))
          else .fault
        else .collect q iface driver dev
    else .returned { dev with initializePhase := 3 } (.setConfiguration (b 5))
  | .returned dev answer => .returned dev answer
  | .fault => .fault

/-- `InitializePhase2` after `n` rounds. -/
def phase2 (dev : Device) (n : Nat) : Phase2 := (phase2Step b len)^[n] (.start dev)

end Machine

/-! ## What a round touches -/

/-- An argument of `DescriptorDynamicCast`, a byte that is read, and an index of `ep_configs_`. -/
inductive Access where
  | cast (p : Option Nat)
  | read (offset : Nat)
  | store (index : Nat)
  deriving DecidableEq

/-- No null pointer, no byte that was not sent, and no index but those of the array. -/
def Access.Ok (len : Int) : Access → Prop
  | .cast p => p ≠ none
  | .read offset => (offset : Int) < len
  | .store index => index < 16

/-- The log of a HID descriptor with `n` class descriptors, three bytes each. -/
def hidReads (q n : Nat) : List Access :=
  [.read (q + 2), .read (q + 3), .read (q + 5)] ++ (List.range n).flatMap fun i =>
    [.read (q + 6 + 3 * i), .read (q + 7 + 3 * i), .read (q + 8 + 3 * i)]

section Touches

variable (b : Nat → UInt8) (len : Int)

def touches : Phase2 → List Access
  | .start _ => [.cast (some 0), .read 1]
  | .find p _ =>
    .read p ::
      match next b len p with
      | none => []
      | some q =>
        [.cast (some q), .read (q + 1)] ++
          if b (q + 1) = interfaceType then
            -- the log, and `NewClassDriver`
            [.read (q + 5), .read (q + 6), .read (q + 7)] ++
              if (newClassDriver (bytesAt b q)).isSome then [.read (q + 2)] else []
          else []
  | .collect p iface _ dev =>
    .read (iface + 4) ::
      if dev.numEpConfigs < (b (iface + 4)).toNat then
        .read p ::
          match next b len p with
          | none => [.cast none]
          | some q =>
            [.cast (some q), .read (q + 1)] ++
              if b (q + 1) = endpointType then
                [.read (q + 2), .read (q + 3), .read (q + 4), .read (q + 5), .read (q + 6),
                  .store dev.numEpConfigs]
              else
                [.cast (some q), .read (q + 1)] ++
                  if b (q + 1) = hidType then hidReads q (b (q + 5)).toNat else []
      else [.read 5]
  | .returned _ _ => []
  | .fault => []

end Touches

end UnagiOs.Usb
