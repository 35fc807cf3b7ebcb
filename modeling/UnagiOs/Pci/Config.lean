import UnagiOs.Util.Error

/-!
# The PCI configuration space

The reads and writes of `pci.cpp`. A register is read by writing its address to one port and
reading its contents from another; the configuration space is what the second port shows for each
address, and a register keeps what is written to it. A function of a device is known by the numbers
of its bus, its device and itself. `MakeAddress` leaves out the low two bits of a register's
offset, so that a register is a word of 32 bits (`readConfReg_writeConfReg`).
-/

namespace UnagiOs

/-- The contents of the register at each address. -/
def PciSpace : Type := BitVec 32 → BitVec 32

/-- `ClassCode`. -/
structure ClassCode where
  base : BitVec 8
  sub : BitVec 8
  interface : BitVec 8
  deriving DecidableEq

/-- `ClassCode::Match`, with a base class and a subclass. -/
def ClassCode.matchBaseSub (code : ClassCode) (b s : BitVec 8) : Bool :=
  b == code.base && s == code.sub

/-- `pci::Device`. -/
structure PciDevice where
  bus : BitVec 8
  device : BitVec 8
  function : BitVec 8
  headerType : BitVec 8
  classCode : ClassCode
  deriving DecidableEq

/-- `MakeAddress`. -/
def makeAddress (bus device function regAddr : BitVec 8) : BitVec 32 :=
  -- the enable bit
  1#32 <<< 31
    ||| bus.setWidth 32 <<< 16 ||| device.setWidth 32 <<< 11 ||| function.setWidth 32 <<< 8
    ||| (regAddr.setWidth 32 &&& 0xfc#32)

section Reads

variable (conf : PciSpace) (bus device function : BitVec 8)

/-- `WriteAddress` and `ReadData`. -/
def readAt (regAddr : BitVec 8) : BitVec 32 := conf (makeAddress bus device function regAddr)

/-- `ReadVendorId`. -/
def readVendorId : BitVec 16 := (readAt conf bus device function 0x00 &&& 0xffff#32).setWidth 16

/-- `ReadHeaderType`. -/
def readHeaderType : BitVec 8 :=
  (readAt conf bus device function 0x0c >>> 16 &&& 0xff#32).setWidth 8

/-- `ReadClassCode`. -/
def readClassCode : ClassCode :=
  let reg := readAt conf bus device function 0x08
  { base := (reg >>> 24 &&& 0xff#32).setWidth 8
    sub := (reg >>> 16 &&& 0xff#32).setWidth 8
    interface := (reg >>> 8 &&& 0xff#32).setWidth 8 }

/-- `ReadBusNumbers`. -/
def readBusNumbers : BitVec 32 := readAt conf bus device function 0x18

end Reads

/-- `IsSingleFunctionDevice`. -/
def isSingleFunctionDevice (headerType : BitVec 8) : Bool := headerType &&& 0x80#8 == 0

section Registers

variable (conf : PciSpace) (dev : PciDevice)

/-- `ReadConfReg`. -/
def readConfReg (regAddr : BitVec 8) : BitVec 32 :=
  readAt conf dev.bus dev.device dev.function regAddr

/-- `WriteConfReg`. -/
def writeConfReg (regAddr : BitVec 8) (value : BitVec 32) : PciSpace := fun address =>
  if address = makeAddress dev.bus dev.device dev.function regAddr then value else conf address

end Registers

section Addresses

variable {bus device function r r' : BitVec 8} {i : Nat}

/-- The low byte of an address is the offset, without its low two bits. -/
theorem makeAddress_getLsbD (hi : i < 8) :
    (makeAddress bus device function r).getLsbD i = (r.getLsbD i && decide (2 ≤ i)) := by
  have hmask : ∀ i < 8, (0xfc#32).getLsbD i = decide (2 ≤ i) := by decide
  have henable : ∀ i < 8, (1#32 <<< 31).getLsbD i = false := by decide
  rw [makeAddress, BitVec.getLsbD_or, BitVec.getLsbD_or, BitVec.getLsbD_or, BitVec.getLsbD_or,
    henable i hi, BitVec.getLsbD_and, hmask i hi]
  simp [show i < 16 by omega, show i < 11 by omega, show i < 32 by omega, hi]

/-- Offsets in one word are the same register. -/
theorem makeAddress_eq_iff :
    makeAddress bus device function r = makeAddress bus device function r' ↔
      r.toNat / 4 = r'.toNat / 4 := by
  have hbit : ∀ (r : BitVec 8) (i : Nat), (r.toNat / 4).testBit i = r.getLsbD (i + 2) := fun r i =>
    Nat.testBit_div_two_pow (n := 2) r.toNat i
  constructor
  · intro heq
    refine Nat.eq_of_testBit_eq fun i => ?_
    rw [hbit, hbit]
    by_cases hi : i + 2 < 8
    · have hlow := congrArg (fun w => w.getLsbD (i + 2)) heq
      simpa [makeAddress_getLsbD hi] using hlow
    · rw [BitVec.getLsbD_of_ge r _ (by omega), BitVec.getLsbD_of_ge r' _ (by omega)]
  · intro heq
    have hword : ∀ r : BitVec 8, r.setWidth 32 &&& 0xfc#32 = BitVec.ofNat 32 (r.toNat / 4 * 4) := by
      decide +kernel
    rw [makeAddress, makeAddress, hword, hword, heq]

end Addresses

variable {conf : PciSpace} {dev : PciDevice} {r r' : BitVec 8} {v : BitVec 32}

/-- A register reads what was written to it, and the other registers of the device are as before. -/
theorem readConfReg_writeConfReg : readConfReg (writeConfReg conf dev r v) dev r' =
    if r.toNat / 4 = r'.toNat / 4 then v else readConfReg conf dev r' := by
  simp only [readConfReg, readAt, writeConfReg, makeAddress_eq_iff, eq_comm (a := r.toNat / 4)]

end UnagiOs
