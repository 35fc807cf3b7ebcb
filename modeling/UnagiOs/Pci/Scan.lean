import Mathlib.Data.Set.Card
import UnagiOs.Pci.Config
import UnagiOs.Theory.DepthFirst
import UnagiOs.Theory.Slots

/-!
# The scan of the PCI buses

`ScanAllBus` enters the functions it finds in `devices`, an array of 32. `ScanFunction` goes on to
the bus behind a function that is a bridge before the scan of its own bus continues, and the bus
number behind a bridge is whatever its registers hold: the buses may lead back to each other.

- `configWord`: the words of a function's configuration header. What is present, what is a bridge
  and what its entry should hold is said by their bits, not by the readers of the code.
- `scanBus_eq`, `scanAllBus_eq`: the three functions that call each other are one loop over the
  functions of a bus.
- `Scanned`: what a scan did, a depth-first listing that is whole or was stopped by the full array.
- `scanAllBus_terminates`: a bus is only entered from a function that has just got a place, so that
  the buses nest 32 deep at most.
- `scanAllBus_lists`: where the bridges form a tree and the array has room, everything that can be
  reached is entered once.
-/

namespace UnagiOs

open List

/-! ## The code -/

/-- `devices` and `num_device`. -/
structure PciTable where
  devices : Nat → PciDevice
  numDevice : Nat

/-- `AddDevice`. A store outside of the array is stuck. -/
def addDevice (t : PciTable) (dev : PciDevice) : Option (PciTable × Error) :=
  if t.numDevice = 32 then some (t, .kFull)
  else if t.numDevice < 32 then
    some ({ devices := setSlot t.devices t.numDevice dev, numDevice := t.numDevice + 1 }, .kSuccess)
  else none

/-- `for (uint8_t i = a; i < b; ++i)`. -/
def byteRange (a b : Nat) : List (BitVec 8) := (List.range' a (b - a)).map (BitVec.ofNat 8)

section Code

variable (conf : PciSpace)

/-- `ScanFunction`; `scan` is the `ScanBus` it calls. -/
def scanFunction (scan : BitVec 8 → PciTable → Option (PciTable × Error))
    (bus device function : BitVec 8) (t : PciTable) : Option (PciTable × Error) :=
  let classCode := readClassCode conf bus device function
  let headerType := readHeaderType conf bus device function
  andThen (addDevice t ⟨bus, device, function, headerType, classCode⟩) fun t =>
    if classCode.matchBaseSub 0x06 0x04 then
      scan ((readBusNumbers conf bus device function >>> 8 &&& 0xff#32).setWidth 8) t
    else some (t, .kSuccess)

/-- `ScanDevice`. -/
def scanDevice (scan : BitVec 8 → PciTable → Option (PciTable × Error)) (bus device : BitVec 8)
    (t : PciTable) : Option (PciTable × Error) :=
  andThen (scanFunction conf scan bus device 0 t) fun t =>
    if isSingleFunctionDevice (readHeaderType conf bus device 0) then some (t, .kSuccess)
    else
      forEach (fun function t =>
        if readVendorId conf bus device function = 0xffff#16 then some (t, .kSuccess)
        else scanFunction conf scan bus device function t) (byteRange 1 8) t

/-- `ScanBus`, stuck if the buses nest deeper than `n`. -/
def scanBus : Nat → BitVec 8 → PciTable → Option (PciTable × Error)
  | 0, _, _ => none
  | n + 1, bus, t =>
    forEach (fun device t =>
      if readVendorId conf bus device 0 = 0xffff#16 then some (t, .kSuccess)
      else scanDevice conf (scanBus n) bus device t) (byteRange 0 32) t

/-- `ScanAllBus`. -/
def scanAllBus (n : Nat) (t : PciTable) : Option (PciTable × Error) :=
  let t := { t with numDevice := 0 }
  let headerType := readHeaderType conf 0 0 0
  if isSingleFunctionDevice headerType then scanBus conf n 0 t
  else
    forEach (fun function t =>
      if readVendorId conf 0 0 function = 0xffff#16 then some (t, .kSuccess)
      else scanBus conf n function t) (byteRange 0 8) t

end Code

/-! ## What can be reached -/

/-- A function of a device. -/
structure PciFunction where
  bus : BitVec 8
  device : BitVec 8
  function : BitVec 8
  deriving DecidableEq

section Graph

variable (conf : PciSpace)

/-- A word of the configuration header: bit 31 of the address enables it, the bus is in bits 23 to
16, the device from bit 11 and the function from bit 8 on, below them the offset. -/
def configWord (x : PciFunction) (offset : BitVec 8) : BitVec 32 :=
  conf (0x80000000#32 ||| x.bus.setWidth 32 <<< 16 ||| x.device.setWidth 32 <<< 11
    ||| x.function.setWidth 32 <<< 8 ||| offset.setWidth 32)

/-- The vendor, bits 15 to 0 of word 0, is not the one that a missing function answers with. -/
def Answers (x : PciFunction) : Prop := (configWord conf x 0x00).extractLsb' 0 16 ≠ 0xffff#16

/-- The device has more functions than 0: bit 7 of the header type, which is in bits 23 to 16 of
word 0x0c. -/
def IsMulti (bus device : BitVec 8) : Prop := (configWord conf ⟨bus, device, 0⟩ 0x0c).getLsbD 23

instance : DecidablePred (Answers conf) := fun _ => inferInstanceAs (Decidable (_ ≠ _))

instance (bus device : BitVec 8) : Decidable (IsMulti conf bus device) :=
  inferInstanceAs (Decidable (_ = true))

/-- There is such a function: the device has a function 0, and further ones if it says so. -/
def Present (x : PciFunction) : Prop :=
  x.device.toNat < 32 ∧ x.function.toNat < 8 ∧ Answers conf ⟨x.bus, x.device, 0⟩ ∧
    (x.function = 0 ∨ IsMulti conf x.bus x.device ∧ Answers conf x)

/-- A PCI-to-PCI bridge: base class 6 and subclass 4 in the upper half of word 8. -/
def IsBridge (x : PciFunction) : Prop :=
  (configWord conf x 0x08).extractLsb' 24 8 = 0x06#8 ∧
    (configWord conf x 0x08).extractLsb' 16 8 = 0x04#8

instance : DecidablePred (IsBridge conf) := fun _ => inferInstanceAs (Decidable (_ ∧ _))

/-- The bus behind a bridge, bits 15 to 8 of word 0x18. -/
def secondaryBus (x : PciFunction) : BitVec 8 := (configWord conf x 0x18).extractLsb' 8 8

/-- The buses that `ScanAllBus` scans itself: bus 0, or one for each function of the host bridge. -/
def rootBuses : List (BitVec 8) :=
  if IsMulti conf 0 0 then (byteRange 0 8).filter fun function => Answers conf ⟨0, 0, function⟩
  else [0]

/-- A function on a bus that is scanned, or on the bus behind a bridge that can be reached. -/
inductive Reachable : PciFunction → Prop
  | root {x : PciFunction} (hbus : x.bus ∈ rootBuses conf) (hx : Present conf x) : Reachable x
  | behind {b x : PciFunction} (hb : Reachable b) (hbridge : IsBridge conf b)
      (hbus : x.bus = secondaryBus conf b) (hx : Present conf x) : Reachable x

/-- Each bus is behind one bridge at most, and the buses scanned directly are behind none. -/
structure BridgeTree : Prop where
  unique : ∀ b b', Reachable conf b → Reachable conf b' → IsBridge conf b → IsBridge conf b' →
    secondaryBus conf b = secondaryBus conf b' → b = b'
  not_root : ∀ b, Reachable conf b → IsBridge conf b → secondaryBus conf b ∉ rootBuses conf

/-- The entry of a function: the header type in bits 23 to 16 of word 0x0c, and the class in the
upper three bytes of word 8. -/
def deviceAt (x : PciFunction) : PciDevice :=
  { bus := x.bus
    device := x.device
    function := x.function
    headerType := (configWord conf x 0x0c).extractLsb' 16 8
    classCode :=
      { base := (configWord conf x 0x08).extractLsb' 24 8
        sub := (configWord conf x 0x08).extractLsb' 16 8
        interface := (configWord conf x 0x08).extractLsb' 8 8 } }

/-- The functions of a device that has a function 0. -/
def functionsOf (bus device : BitVec 8) : List PciFunction :=
  ⟨bus, device, 0⟩ ::
    if IsMulti conf bus device then
      ((byteRange 1 8).filter fun function => Answers conf ⟨bus, device, function⟩).map
        fun function => ⟨bus, device, function⟩
    else []

/-- The functions on a bus, by device and function. -/
def functionsOnBus (bus : BitVec 8) : List PciFunction :=
  ((byteRange 0 32).filter fun device => Answers conf ⟨bus, device, 0⟩).flatMap
    (functionsOf conf bus)

/-- The functions behind a function. -/
def behind (x : PciFunction) : List PciFunction :=
  if IsBridge conf x then functionsOnBus conf (secondaryBus conf x) else []

/-- The functions on the buses that are scanned directly. -/
def rootFunctions : List PciFunction := (rootBuses conf).flatMap (functionsOnBus conf)

end Graph

section ByteRange

variable {a b : Nat} {i : BitVec 8}

theorem mem_byteRange (hb : b ≤ 256) : i ∈ byteRange a b ↔ a ≤ i.toNat ∧ i.toNat < b := by
  simp only [byteRange, mem_map, mem_range'_1]
  constructor
  · rintro ⟨k, hk, rfl⟩
    rw [BitVec.toNat_ofNat, Nat.mod_eq_of_lt (by omega)]
    omega
  · intro hi
    exact ⟨i.toNat, by omega, by simp⟩

theorem byteRange_nodup (hb : b ≤ 256) : (byteRange a b).Nodup := by
  refine Nodup.map_on ?_ nodup_range'
  intro i hi j hj heq
  rw [mem_range'_1] at hi hj
  have hval := congrArg BitVec.toNat heq
  rw [BitVec.toNat_ofNat, BitVec.toNat_ofNat, Nat.mod_eq_of_lt (by omega),
    Nat.mod_eq_of_lt (by omega)] at hval
  exact hval

end ByteRange

section Functions

variable {conf : PciSpace} {bus device : BitVec 8} {x y : PciFunction}

/-- Function 0, and the others that answer if there are others. -/
theorem mem_functionsOf : x ∈ functionsOf conf bus device ↔ x.bus = bus ∧ x.device = device ∧
    x.function.toNat < 8 ∧ (x.function = 0 ∨ IsMulti conf bus device ∧ Answers conf x) := by
  obtain ⟨b, d, f⟩ := x
  simp only [functionsOf, mem_cons, PciFunction.mk.injEq]
  have hf : f = 0 ↔ f.toNat = 0 := by
    rw [BitVec.toNat_eq]
    rfl
  split
  · next hmulti =>
    simp only [mem_map, mem_filter, decide_eq_true_eq, PciFunction.mk.injEq,
      mem_byteRange (show 8 ≤ 256 by decide)]
    constructor
    · rintro (⟨rfl, rfl, h0⟩ | ⟨f', ⟨hrange, hvendor⟩, rfl, rfl, rfl⟩)
      · exact ⟨rfl, rfl, by rw [hf.mp h0]; decide, .inl h0⟩
      · exact ⟨rfl, rfl, hrange.2, .inr ⟨hmulti, hvendor⟩⟩
    · rintro ⟨rfl, rfl, hlt, h0 | ⟨-, hvendor⟩⟩
      · exact .inl ⟨rfl, rfl, h0⟩
      · by_cases h0 : f = 0
        · exact .inl ⟨rfl, rfl, h0⟩
        · rw [hf] at h0
          exact .inr ⟨f, ⟨by omega, hvendor⟩, rfl, rfl, rfl⟩
  · next hsingle =>
    simp only [hsingle, not_mem_nil, or_false, false_and]
    constructor
    · rintro ⟨rfl, rfl, h0⟩
      exact ⟨rfl, rfl, by rw [hf.mp h0]; decide, h0⟩
    · rintro ⟨rfl, rfl, -, h0⟩
      exact ⟨rfl, rfl, h0⟩

theorem mem_functionsOnBus : x ∈ functionsOnBus conf bus ↔ x.bus = bus ∧ Present conf x := by
  simp only [functionsOnBus, mem_flatMap, mem_filter, decide_eq_true_eq,
    mem_byteRange (show 32 ≤ 256 by decide), mem_functionsOf, Present]
  constructor
  · rintro ⟨d, ⟨hrange, hvendor⟩, rfl, rfl, hfunction, hshown⟩
    exact ⟨rfl, hrange.2, hfunction, hvendor, hshown⟩
  · rintro ⟨rfl, hdevice, hfunction, hvendor, hshown⟩
    exact ⟨x.device, ⟨⟨Nat.zero_le _, hdevice⟩, hvendor⟩, rfl, rfl, hfunction, hshown⟩

theorem functionsOf_nodup : (functionsOf conf bus device).Nodup := by
  unfold functionsOf
  split
  · refine nodup_cons.mpr ⟨?_, ?_⟩
    · intro hmem
      obtain ⟨f, hf, heq⟩ := mem_map.mp hmem
      have hrange := (mem_byteRange (show 8 ≤ 256 by decide)).mp (mem_filter.mp hf).1
      rw [(PciFunction.mk.inj heq).2.2] at hrange
      exact absurd hrange.1 (by decide)
    · refine ((byteRange_nodup (by decide)).filter _).map fun f f' heq => ?_
      exact (PciFunction.mk.inj heq).2.2
  · exact nodup_singleton _

theorem functionsOnBus_nodup : (functionsOnBus conf bus).Nodup := by
  refine nodup_flatMap.mpr ⟨fun d _ => functionsOf_nodup, ?_⟩
  refine ((byteRange_nodup (by decide)).filter _).imp fun hne x hx hx' => ?_
  exact hne ((mem_functionsOf.mp hx).2.1.symm.trans (mem_functionsOf.mp hx').2.1)

theorem mem_behind : y ∈ behind conf x ↔
    IsBridge conf x ∧ y.bus = secondaryBus conf x ∧ Present conf y := by
  unfold behind
  split
  · next hbridge => simp [hbridge, mem_functionsOnBus]
  · next hbridge => simp [hbridge]

theorem mem_rootFunctions : x ∈ rootFunctions conf ↔ x.bus ∈ rootBuses conf ∧ Present conf x := by
  simp only [rootFunctions, mem_flatMap, mem_functionsOnBus]
  constructor
  · rintro ⟨bus, hbus, rfl, hx⟩
    exact ⟨hbus, hx⟩
  · rintro ⟨hbus, hx⟩
    exact ⟨x.bus, hbus, rfl, hx⟩

/-- What can be reached is what is under the functions on the buses scanned directly. -/
theorem reachable_iff_under : Reachable conf x ↔ Under (behind conf) (rootFunctions conf) x := by
  constructor
  · intro h
    induction h with
    | root hbus hx => exact ⟨_, mem_rootFunctions.mpr ⟨hbus, hx⟩, .refl _⟩
    | behind _ hbridge hbus hx ih => exact ih.child (mem_behind.mpr ⟨hbridge, hbus, hx⟩)
  · rintro ⟨r, hr, hrx⟩
    induction hrx with
    | refl =>
      obtain ⟨hbus, hr⟩ := mem_rootFunctions.mp hr
      exact .root hbus hr
    | tail _ hchild ih =>
      obtain ⟨hbridge, hbus, hx⟩ := mem_behind.mp hchild
      exact .behind ih hbridge hbus hx

theorem rootBuses_nodup : (rootBuses conf).Nodup := by
  unfold rootBuses
  split
  · exact (byteRange_nodup (by decide)).filter _
  · exact nodup_singleton _

/-- Where the bridges form a tree, so do the functions. -/
theorem BridgeTree.forest (h : BridgeTree conf) : Forest (behind conf) (rootFunctions conf) := by
  constructor
  · refine nodup_flatMap.mpr ⟨fun bus _ => functionsOnBus_nodup, ?_⟩
    refine rootBuses_nodup.imp fun hne x hx hx' => ?_
    exact hne ((mem_functionsOnBus.mp hx).1.symm.trans (mem_functionsOnBus.mp hx').1)
  · intro x _
    unfold behind
    split
    · exact functionsOnBus_nodup
    · exact nodup_nil
  · intro x x' y hx hx' hy hy'
    obtain ⟨hbridge, hbus, -⟩ := mem_behind.mp hy
    obtain ⟨hbridge', hbus', -⟩ := mem_behind.mp hy'
    exact h.unique x x' (reachable_iff_under.mpr hx) (reachable_iff_under.mpr hx') hbridge hbridge'
      (hbus.symm.trans hbus')
  · intro x y hx hy hroot
    obtain ⟨hbridge, hbus, -⟩ := mem_behind.mp hy
    refine h.not_root x (reachable_iff_under.mpr hx) hbridge ?_
    rw [← hbus]
    exact (mem_rootFunctions.mp hroot).1

end Functions

/-! ## The readers -/

section Readers

variable (conf : PciSpace) (bus device function : BitVec 8)

/-- A field of eight bits, as the readers cut it out. -/
theorem byte_eq_extract (w : BitVec 32) (k : Nat) :
    (w >>> k &&& 0xff#32).setWidth 8 = w.extractLsb' k 8 := by
  have hmask : ∀ i < 8, (0xff#32).getLsbD i = true := by decide
  refine BitVec.eq_of_getLsbD_eq fun i hi => ?_
  simp only [BitVec.getLsbD_setWidth, BitVec.getLsbD_and, BitVec.getLsbD_ushiftRight,
    BitVec.getLsbD_extractLsb', hmask i hi, hi, decide_true, Bool.true_and, Bool.and_true]

/-- The registers that are read are whole words. -/
theorem readAt_eq {offset : BitVec 8}
    (hword : offset.setWidth 32 &&& 0xfc#32 = offset.setWidth 32) :
    readAt conf bus device function offset = configWord conf ⟨bus, device, function⟩ offset := by
  rw [readAt, makeAddress, hword]
  rfl

theorem readVendorId_ne_iff : ¬ readVendorId conf bus device function = 0xffff#16 ↔
    Answers conf ⟨bus, device, function⟩ := by
  have hmask : ∀ i < 16, (0xffff#32).getLsbD i = true := by decide
  have hlow : ∀ w : BitVec 32, (w &&& 0xffff#32).setWidth 16 = w.extractLsb' 0 16 := by
    intro w
    refine BitVec.eq_of_getLsbD_eq fun i hi => ?_
    simp only [BitVec.getLsbD_setWidth, BitVec.getLsbD_and, BitVec.getLsbD_extractLsb', hmask i hi,
      hi, decide_true, Bool.true_and, Bool.and_true, Nat.zero_add]
  rw [readVendorId, readAt_eq _ _ _ _ (by decide), hlow]
  rfl

theorem isSingleFunctionDevice_iff : isSingleFunctionDevice (readHeaderType conf bus device 0) ↔
    ¬ IsMulti conf bus device := by
  have hbit : ∀ h : BitVec 8, isSingleFunctionDevice h = !h.getLsbD 7 := by decide +kernel
  rw [hbit, readHeaderType, readAt_eq _ _ _ _ (by decide), byte_eq_extract,
    BitVec.getLsbD_extractLsb', IsMulti]
  simp

/-- The readers find the entry of the function. -/
theorem readDevice_eq : (⟨bus, device, function, readHeaderType conf bus device function,
    readClassCode conf bus device function⟩ : PciDevice) =
      deviceAt conf ⟨bus, device, function⟩ := by
  have hheader : readAt conf bus device function 0x0c = _ := readAt_eq _ _ _ _ (by decide)
  have hclass : readAt conf bus device function 0x08 = _ := readAt_eq _ _ _ _ (by decide)
  simp only [readHeaderType, readClassCode, hheader, hclass, byte_eq_extract, deviceAt]

theorem matchBridge_iff : (readClassCode conf bus device function).matchBaseSub 0x06 0x04 ↔
    IsBridge conf ⟨bus, device, function⟩ := by
  have hclass : readClassCode conf bus device function = _ :=
    congrArg PciDevice.classCode (readDevice_eq conf bus device function)
  rw [hclass, ClassCode.matchBaseSub, Bool.and_eq_true, beq_iff_eq, beq_iff_eq, eq_comm,
    eq_comm (a := (0x04 : BitVec 8))]
  rfl

theorem readBusNumbers_eq : (readBusNumbers conf bus device function >>> 8 &&& 0xff#32).setWidth 8 =
    secondaryBus conf ⟨bus, device, function⟩ := by
  rw [readBusNumbers, readAt_eq _ _ _ _ (by decide), byte_eq_extract]
  rfl

/-- The loops go over what answers. -/
theorem forEach_answering (place : BitVec 8 → PciFunction)
    (body : BitVec 8 → PciTable → Option (PciTable × Error)) (xs : List (BitVec 8)) (t : PciTable) :
    forEach (fun i t =>
        if readVendorId conf (place i).bus (place i).device (place i).function = 0xffff#16 then
          some (t, .kSuccess)
        else body i t) xs t =
      forEach body (xs.filter fun i => Answers conf (place i)) t := by
  rw [forEach_filter]
  refine congrArg (forEach body · t) (filter_congr fun i _ => ?_)
  exact decide_eq_decide.mpr (readVendorId_ne_iff conf _ _ _)

end Readers

/-! ## The scan as one loop -/

section Loop

variable (conf : PciSpace)

/-- `ScanFunction` on a function of a bus that nests `n` deep. -/
def scanAt (n : Nat) (x : PciFunction) : PciTable → Option (PciTable × Error) :=
  scanFunction conf (scanBus conf n) x.bus x.device x.function

theorem scanDevice_eq (n : Nat) (bus device : BitVec 8) (t : PciTable) :
    scanDevice conf (scanBus conf n) bus device t =
      forEach (scanAt conf n) (functionsOf conf bus device) t := by
  rw [scanDevice, functionsOf, forEach]
  refine congrArg _ (funext fun t => ?_)
  simp only [isSingleFunctionDevice_iff]
  by_cases hmulti : IsMulti conf bus device
  · rw [if_neg (not_not.mpr hmulti), if_pos hmulti, forEach_map]
    exact forEach_answering conf (fun function => ⟨bus, device, function⟩) _ _ t
  · rw [if_pos hmulti, if_neg hmulti]
    rfl

theorem scanBus_eq (n : Nat) (bus : BitVec 8) (t : PciTable) :
    scanBus conf (n + 1) bus t = forEach (scanAt conf n) (functionsOnBus conf bus) t := by
  rw [scanBus, functionsOnBus, forEach_flatMap]
  refine (forEach_answering conf (fun device => ⟨bus, device, 0⟩) _ _ t).trans ?_
  exact congrArg (fun body => forEach body _ t)
    (funext fun device => funext fun t => scanDevice_eq conf n bus device t)

theorem scanAllBus_eq (n : Nat) (t : PciTable) :
    scanAllBus conf (n + 1) t =
      forEach (scanAt conf n) (rootFunctions conf) { t with numDevice := 0 } := by
  have hbus : ∀ bus, scanBus conf (n + 1) bus =
      forEach (scanAt conf n) (functionsOnBus conf bus) := fun bus =>
    funext fun t => scanBus_eq conf n bus t
  simp only [scanAllBus, rootFunctions, rootBuses, isSingleFunctionDevice_iff]
  by_cases hmulti : IsMulti conf 0 0
  · rw [if_neg (not_not.mpr hmulti), if_pos hmulti, forEach_flatMap]
    refine (forEach_answering conf (fun function => ⟨0, 0, function⟩) _ _ _).trans ?_
    exact congrArg (fun body => forEach body _ _) (funext hbus)
  · rw [if_pos hmulti, if_neg hmulti, hbus, flatMap_singleton]

end Loop

/-! ## What a scan does -/

/-- The entries in use. -/
def PciTable.found (t : PciTable) : List PciDevice := slots t.devices t.numDevice

/-- The functions under `xs` were entered, all of them or until there was no place for the next. -/
inductive Scanned (conf : PciSpace) (t : PciTable) (xs : List PciFunction) :
    PciTable → Error → Prop
  | whole {t' : PciTable} (l : List PciFunction) (hl : DepthFirst (behind conf) xs l true)
      (hfound : t'.found = t.found ++ l.map (deviceAt conf)) (hnum : t'.numDevice ≤ 32) :
      Scanned conf t xs t' .kSuccess
  | full {t' : PciTable} (l : List PciFunction) (y : PciFunction)
      (hl : DepthFirst (behind conf) xs (l ++ [y]) false)
      (hfound : t'.found = t.found ++ l.map (deviceAt conf)) (hnum : t'.numDevice = 32) :
      Scanned conf t xs t' .kFull

section Scan

variable {conf : PciSpace} {t t' t₁ : PciTable} {e : Error} {xs ys : List PciFunction} {n : Nat}

theorem Scanned.numDevice_le (h : Scanned conf t xs t' e) : t'.numDevice ≤ 32 := by
  cases h with
  | whole _ _ _ hnum => exact hnum
  | full _ _ _ _ hnum => exact Nat.le_of_eq hnum

theorem numDevice_le_of_found {l : List PciDevice} (h : t'.found = t.found ++ l) :
    t.numDevice ≤ t'.numDevice := by
  have hlen := congrArg List.length h
  rw [length_append, PciTable.found, PciTable.found, length_slots, length_slots] at hlen
  omega

theorem Scanned.append (h : Scanned conf t xs t₁ .kSuccess) (h' : Scanned conf t₁ ys t' e) :
    Scanned conf t (xs ++ ys) t' e := by
  cases h with
  | whole l hl hfound _ =>
    cases h' with
    | whole l' hl' hfound' hnum =>
      refine .whole (l ++ l') (hl.append hl') ?_ hnum
      rw [hfound', hfound, map_append, append_assoc]
    | full l' y hl' hfound' hnum =>
      refine .full (l ++ l') y ?_ ?_ hnum
      · rw [append_assoc]
        exact hl.append hl'
      · rw [hfound', hfound, map_append, append_assoc]

theorem Scanned.append_full (h : Scanned conf t xs t' .kFull) (ys : List PciFunction) :
    Scanned conf t (xs ++ ys) t' .kFull := by
  cases h with
  | full l y hl hfound hnum => exact .full l y (hl.append_stopped ys) hfound hnum

theorem Scanned.error (h : Scanned conf t xs t' e) : e = .kSuccess ∨ e = .kFull := by
  cases h with
  | whole _ _ _ _ => exact .inl rfl
  | full _ _ _ _ _ => exact .inr rfl

/-- A function gets its place and is gone behind, or there is no place. -/
theorem scanAt_scanned (ht : t.numDevice ≤ 32) (x : PciFunction)
    (hbus : ∀ t₁ : PciTable, t₁.numDevice = t.numDevice + 1 → t₁.numDevice ≤ 32 →
      ∃ t' e, scanBus conf n (secondaryBus conf x) t₁ = some (t', e) ∧
        Scanned conf t₁ (functionsOnBus conf (secondaryBus conf x)) t' e) :
    ∃ t' e, scanAt conf n x t = some (t', e) ∧ Scanned conf t [x] t' e := by
  by_cases hfull : t.numDevice = 32
  · refine ⟨t, .kFull, ?_, .full [] x (.down (.stop _)) (by simp) hfull⟩
    rw [scanAt, scanFunction, addDevice, if_pos hfull]
    rfl
  · have hlt : t.numDevice < 32 := by omega
    obtain ⟨t₁, hadd, hnum, hfound⟩ : ∃ t₁, addDevice t (deviceAt conf x) = some (t₁, .kSuccess) ∧
        t₁.numDevice = t.numDevice + 1 ∧ t₁.found = t.found ++ [deviceAt conf x] := by
      rw [addDevice, if_neg hfull, if_pos hlt]
      exact ⟨_, rfl, rfl, slots_setSlot_push _ _ _⟩
    have hscan : scanAt conf n x t = if IsBridge conf x then
        scanBus conf n (secondaryBus conf x) t₁ else some (t₁, .kSuccess) := by
      simp only [scanAt, scanFunction, readDevice_eq, matchBridge_iff, readBusNumbers_eq, hadd]
      rfl
    -- behind a bridge, the run of its bus is put after `x`
    by_cases hbridge : IsBridge conf x
    · rw [if_pos hbridge] at hscan
      have hbehind : behind conf x = functionsOnBus conf (secondaryBus conf x) := if_pos hbridge
      obtain ⟨t', e, hrun, hscanned⟩ := hbus t₁ hnum (by omega)
      rw [← hbehind] at hscanned
      refine ⟨t', e, hscan.trans hrun, ?_⟩
      cases hscanned with
      | whole l hl hfound' hnum' =>
        refine .whole (x :: (l ++ [])) (.next hl .nil) ?_ hnum'
        rw [hfound', hfound, append_nil, map_cons, append_assoc]
        rfl
      | full l y hl hfound' hnum' =>
        refine .full (x :: l) y (.down hl) ?_ hnum'
        rw [hfound', hfound, map_cons, append_assoc]
        rfl
    · rw [if_neg hbridge] at hscan
      have hbehind : behind conf x = [] := if_neg hbridge
      refine ⟨t₁, .kSuccess, hscan, .whole [x] ?_ hfound (by omega)⟩
      have hnil : DepthFirst (behind conf) (behind conf x) [] true := by
        rw [hbehind]
        exact .nil
      exact .next hnil .nil

/-- From what each function does to what the loop does. -/
theorem forEach_scanned_of {m : Nat} (hat : ∀ t : PciTable, t.numDevice ≤ 32 → m ≤ t.numDevice →
      ∀ x, ∃ t' e, scanAt conf n x t = some (t', e) ∧ Scanned conf t [x] t' e)
    (xs : List PciFunction) (ht : t.numDevice ≤ 32) (hm : m ≤ t.numDevice) :
    ∃ t' e, forEach (scanAt conf n) xs t = some (t', e) ∧ Scanned conf t xs t' e := by
  induction xs generalizing t with
  | nil => exact ⟨t, .kSuccess, rfl, .whole [] .nil (by simp) ht⟩
  | cons x xs ih =>
    obtain ⟨t₁, e₁, hx, hscanned⟩ := hat t ht hm x
    rw [forEach, hx]
    rcases hscanned.error with rfl | rfl
    · have hm₁ : m ≤ t₁.numDevice := by
        cases hscanned with
        | whole _ _ hfound _ => exact hm.trans (numDevice_le_of_found hfound)
      obtain ⟨t', e, hrest, hscanned'⟩ := ih hscanned.numDevice_le hm₁
      exact ⟨t', e, hrest, hscanned.append hscanned'⟩
    · exact ⟨t₁, .kFull, rfl, hscanned.append_full xs⟩

/-- **What is scanned is a depth-first listing.** The depth that is left and the places that are
taken make up 32: the bus behind a bridge is one deeper, and the bridge has taken a place. -/
theorem forEach_scanned (xs : List PciFunction) (ht : t.numDevice ≤ 32)
    (hn : 32 ≤ t.numDevice + n) :
    ∃ t' e, forEach (scanAt conf n) xs t = some (t', e) ∧ Scanned conf t xs t' e := by
  induction n generalizing t xs with
  | zero =>
    refine forEach_scanned_of (m := 32) (fun t ht hm x => ?_) xs ht hn
    exact scanAt_scanned ht x fun t₁ hnum hle => by omega
  | succ n ih =>
    refine forEach_scanned_of (m := 31 - n) (fun t ht hm x => ?_) xs ht (by omega)
    refine scanAt_scanned ht x fun t₁ hnum hle => ?_
    rw [scanBus_eq]
    exact ih _ hle (by omega)

end Scan

/-! ## The depth does not matter -/

section Depth

variable {conf : PciSpace} {n : Nat} {t : PciTable} {r : PciTable × Error}

theorem scanAt_mono (h : ∀ bus t r, scanBus conf n bus t = some r →
      scanBus conf (n + 1) bus t = some r) {x : PciFunction} (hr : scanAt conf n x t = some r) :
    scanAt conf (n + 1) x t = some r := by
  rw [scanAt, scanFunction] at hr ⊢
  refine andThen_mono (fun _ => id) (fun t r hr => ?_) hr
  split at hr
  · next hbridge =>
    rw [if_pos hbridge]
    exact h _ _ _ hr
  · next hbridge =>
    rw [if_neg hbridge]
    exact hr

theorem scanBus_mono (n : Nat) : ∀ bus t r, scanBus conf n bus t = some r →
    scanBus conf (n + 1) bus t = some r := by
  induction n with
  | zero =>
    intro bus t r hr
    cases hr
  | succ n ih =>
    intro bus t r hr
    rw [scanBus_eq] at hr ⊢
    exact forEach_mono (fun x t r => scanAt_mono ih) hr

/-- A scan that comes back comes back with the same if the buses may nest deeper. -/
theorem scanAllBus_add (h : scanAllBus conf (n + 1) t = some r) (k : Nat) :
    scanAllBus conf (k + (n + 1)) t = some r := by
  induction k with
  | zero => rwa [Nat.zero_add]
  | succ k ih =>
    rw [show k + 1 + (n + 1) = k + (n + 1) + 1 by omega, scanAllBus_eq]
    rw [show k + (n + 1) = k + n + 1 by omega, scanAllBus_eq] at ih
    exact forEach_mono (fun x t r => scanAt_mono (scanBus_mono (k + n))) ih

end Depth

/-! ## The results -/

section Results

variable (conf : PciSpace) (t : PciTable)

theorem scanAllBus_scanned : ∃ t' e, (∀ k, scanAllBus conf (k + 33) t = some (t', e)) ∧
    Scanned conf { t with numDevice := 0 } (rootFunctions conf) t' e := by
  have ht : { t with numDevice := 0 }.numDevice ≤ 32 := Nat.zero_le _
  obtain ⟨t', e, hrun, hscanned⟩ :=
    forEach_scanned (n := 32) (rootFunctions conf) ht (Nat.le_add_left _ _)
  rw [← scanAllBus_eq] at hrun
  exact ⟨t', e, scanAllBus_add hrun, hscanned⟩

/-- **The scan comes back whatever the registers hold**, also where bridges lead to their own bus
or to one that is being scanned. No store is outside of the array, a store there being stuck. -/
theorem scanAllBus_terminates :
    ∃ t' e, (∀ k, scanAllBus conf (k + 33) t = some (t', e)) ∧ t'.numDevice ≤ 32 := by
  obtain ⟨t', e, hrun, hscanned⟩ := scanAllBus_scanned conf t
  exact ⟨t', e, hrun, hscanned.numDevice_le⟩

end Results

/-- **A tree of buses is listed whole**, each function once and in depth-first order. -/
theorem scanAllBus_lists {conf : PciSpace} (htree : BridgeTree conf)
    (hroom : {x | Reachable conf x}.encard ≤ 32) (t : PciTable) :
    ∃ t', (∀ k, scanAllBus conf (k + 33) t = some (t', .kSuccess)) ∧
      ∃ l : List PciFunction, slots t'.devices t'.numDevice = l.map (deviceAt conf) ∧
        l.Nodup ∧ (∀ x, x ∈ l ↔ Reachable conf x) ∧
          DepthFirst (behind conf) (rootFunctions conf) l true := by
  obtain ⟨t', e, hrun, hscanned⟩ := scanAllBus_scanned conf t
  cases hscanned with
  | whole l hl hfound hnum =>
    refine ⟨t', hrun, l, hfound, htree.forest.nodup hl, fun x => ?_, hl⟩
    rw [hl.mem_iff, reachable_iff_under]
  | full l y hl hfound hnum =>
    -- 33 functions that can be reached, of 32
    have hlen : (l ++ [y]).length = 33 := by
      have hlen := congrArg List.length hfound
      rw [PciTable.found, length_slots, hnum] at hlen
      simp [PciTable.found, slots] at hlen
      simp [← hlen]
    have hnodup := htree.forest.nodup hl
    have hsub : ((l ++ [y]).toFinset : Set PciFunction) ⊆ {x | Reachable conf x} := by
      intro x hx
      rw [Finset.mem_coe, mem_toFinset] at hx
      exact reachable_iff_under.mpr (hl.under hx)
    have hcard := (Set.encard_le_encard hsub).trans hroom
    rw [Set.encard_coe_eq_coe_finsetCard, toFinset_card_of_nodup hnodup, hlen] at hcard
    exact absurd hcard (by decide)

/-- A host bridge, a bridge to bus 1 with a device of two functions behind it, and a device. -/
def sampleBuses : PciSpace := fun address =>
  ([(0x80000000#32, 0x12378086#32), (0x80000008#32, 0x06000000#32), (0x8000000c#32, 0#32),
    (0x80000800#32, 0x244e8086#32), (0x80000808#32, 0x06040000#32), (0x8000080c#32, 0x10000#32),
    (0x80000818#32, 0x00010100#32),
    (0x80001000#32, 0x11111234#32), (0x80001008#32, 0x03000000#32), (0x8000100c#32, 0#32),
    (0x80010000#32, 0x10d38086#32), (0x80010008#32, 0x02000000#32), (0x8001000c#32, 0x800000#32),
    (0x80010300#32, 0x10d48086#32), (0x80010308#32, 0x0c033000#32), (0x8001030c#32, 0x800000#32)]
    |>.lookup address).getD 0xffffffff#32

def sampleFunctions : List PciFunction := [⟨0, 0, 0⟩, ⟨0, 1, 0⟩, ⟨1, 0, 0⟩, ⟨1, 0, 3⟩, ⟨0, 2, 0⟩]

theorem sampleBuses_reachable {x : PciFunction} (h : Reachable sampleBuses x) :
    x ∈ sampleFunctions := by
  have hroots : ∀ x ∈ rootFunctions sampleBuses, x ∈ sampleFunctions := by decide +kernel
  have hbehind : ∀ b ∈ sampleFunctions, ∀ x ∈ behind sampleBuses b, x ∈ sampleFunctions := by
    decide +kernel
  induction h with
  | root hbus hx => exact hroots _ (mem_rootFunctions.mpr ⟨hbus, hx⟩)
  | behind _ hbridge hbus hx ih => exact hbehind _ ih _ (mem_behind.mpr ⟨hbridge, hbus, hx⟩)

theorem sampleBuses_tree : BridgeTree sampleBuses := by
  have hunique : ∀ b ∈ sampleFunctions, ∀ b' ∈ sampleFunctions, IsBridge sampleBuses b →
      IsBridge sampleBuses b' → b = b' := by decide +kernel
  have hroot : ∀ b ∈ sampleFunctions, IsBridge sampleBuses b →
      secondaryBus sampleBuses b ∉ rootBuses sampleBuses := by decide +kernel
  constructor
  · intro b b' hb hb' hbridge hbridge' _
    exact hunique b (sampleBuses_reachable hb) b' (sampleBuses_reachable hb') hbridge hbridge'
  · intro b hb hbridge
    exact hroot b (sampleBuses_reachable hb) hbridge

theorem sampleBuses_room : {x | Reachable sampleBuses x}.encard ≤ 32 := by
  have hsub : {x | Reachable sampleBuses x} ⊆ (sampleFunctions.toFinset : Set PciFunction) := by
    intro x hx
    rw [Finset.mem_coe, mem_toFinset]
    exact sampleBuses_reachable hx
  refine (Set.encard_le_encard hsub).trans ?_
  rw [Set.encard_coe_eq_coe_finsetCard]
  decide

theorem scanAllBus_lists_sample :
    ∃ t', (∀ k, scanAllBus sampleBuses (k + 33)
        ⟨fun _ => deviceAt sampleBuses ⟨0, 0, 0⟩, 7⟩ = some (t', .kSuccess)) ∧
      ∃ l : List PciFunction, slots t'.devices t'.numDevice = l.map (deviceAt sampleBuses) ∧
        l.Nodup ∧ (∀ x, x ∈ l ↔ Reachable sampleBuses x) ∧
          DepthFirst (behind sampleBuses) (rootFunctions sampleBuses) l true :=
  scanAllBus_lists sampleBuses_tree sampleBuses_room _

end UnagiOs
