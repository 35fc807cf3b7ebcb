import UnagiOs.Usb.InitPhase2

/-!
# Well-formed configuration blocks

A well-formed block is a configuration descriptor and behind it any descriptors, each as long as its
first byte says. Behind an interface descriptor come as many endpoint descriptors as it names before
the next interface, with others in between.

What the fields mean is read off the bytes here (`IsBoot`, `endpointOf`), not with the functions of
the code.

`initializePhase2_block`: from such a block, sent whole, `InitializePhase2` takes the endpoints of
the first interface of a boot keyboard or mouse, and their driver; without such an interface it
leaves the device as it is.
-/

namespace UnagiOs.Usb

open List

/-- The bytes of a descriptor. -/
def bytesOf (d : List UInt8) : Nat → UInt8 := fun i => d.getD i 0

/-- The protocol byte of a boot device. -/
def bootProtocol : DriverKind → UInt8
  | .keyboard => 1
  | .mouse => 2

/-- An interface descriptor with the class HID, the subclass boot and the protocol of the device. -/
def IsBoot (d : List UInt8) (kind : DriverKind) : Prop :=
  bytesOf d 1 = 4 ∧ bytesOf d 5 = 3 ∧ bytesOf d 6 = 1 ∧ bytesOf d 7 = bootProtocol kind

instance (d : List UInt8) (kind : DriverKind) : Decidable (IsBoot d kind) :=
  inferInstanceAs (Decidable (_ ∧ _))

/-- The endpoint descriptors of an interface, among the descriptors behind it: those before the
next interface. -/
def endpointsOf (rest : List (List UInt8)) : List (List UInt8) :=
  (rest.takeWhile fun e => bytesOf e 1 ≠ 4).filter fun e => bytesOf e 1 = 5

/-- The number of an endpoint, bits 3 to 0 of byte 2. -/
def endpointNumber (d : List UInt8) : Nat := (bytesOf d 2 &&& 0x0f).toNat

/-- What an endpoint descriptor says. Bit 7 of byte 2 is set for an IN endpoint, whose address is
one more than twice its number; the type is in bits 1 to 0 of byte 3, the size of a packet in bytes
4 and 5, and the interval in byte 6. -/
def endpointOf (d : List UInt8) : EndpointConfig where
  epId := ⟨2 * endpointNumber d + if bytesOf d 2 &&& 0x80 = 0 then 0 else 1⟩
  epType :=
    if bytesOf d 3 &&& 0x03 = 0 then .kControl
    else if bytesOf d 3 &&& 0x03 = 1 then .kIsochronous
    else if bytesOf d 3 &&& 0x03 = 2 then .kBulk
    else .kInterrupt
  maxPacketSize := (bytesOf d 5).toNat <<< 8 ||| (bytesOf d 4).toNat
  interval := (bytesOf d 6).toNat

/-- A configuration descriptor and the descriptors behind it. -/
structure ConfigurationBlock (head : List UInt8) (ds : List (List UInt8)) : Prop where
  sized : ∀ d ∈ head :: ds, Sized d
  head_type : bytesOf head 1 = 2
  head_size : 9 ≤ head.length
  /-- There are a length and a type. -/
  size : ∀ d ∈ ds, 2 ≤ d.length
  interface_size : ∀ d ∈ ds, bytesOf d 1 = 4 → 9 ≤ d.length
  endpoint_size : ∀ d ∈ ds, bytesOf d 1 = 5 → 7 ≤ d.length
  endpoints : ∀ pre d rest, ds = pre ++ d :: rest → bytesOf d 1 = 4 →
    (endpointsOf rest).length = (bytesOf d 4).toNat ∧ (bytesOf d 4).toNat ≤ 16

/-! ## Descriptors in the buffer -/

section Bytes

variable {b : Nat → UInt8} {p : Nat} {d : List UInt8} {f g : Nat → UInt8}

theorem bytesAt_eq_bytesOf (h : HoldsAt b p d) {i : Nat} (hi : i < d.length) :
    bytesAt b p i = bytesOf d i := by
  rw [bytesAt, h i hi]
  simp [bytesOf, hi]

theorem holdsAt_bytesOf (d : List UInt8) : HoldsAt (bytesOf d) 0 d := by
  intro i hi
  rw [Nat.zero_add]
  simp [bytesOf, hi]

theorem interfaceDriver_congr (htype : f 1 = g 1)
    (hfields : f 1 = interfaceType → ∀ i < 9, f i = g i) :
    interfaceDriver f = interfaceDriver g := by
  unfold interfaceDriver
  rw [← htype]
  split
  · next hinterface =>
    have hf := hfields hinterface
    unfold newClassDriver
    rw [hf 2 (by decide), hf 5 (by decide), hf 6 (by decide), hf 7 (by decide)]
  · rfl

theorem endpointConfig_congr (htype : f 1 = g 1)
    (hfields : f 1 = endpointType → ∀ i < 7, f i = g i) : endpointConfig f = endpointConfig g := by
  unfold endpointConfig
  rw [← htype]
  split
  · next hendpoint =>
    have hf := hfields hendpoint
    unfold makeEPConfig
    rw [hf 2 (by decide), hf 3 (by decide), hf 4 (by decide), hf 5 (by decide), hf 6 (by decide)]
  · rfl

end Bytes

/-! ## The fields -/

section Fields

variable {d : List UInt8}

/-- `NewClassDriver` has a driver for boot keyboards and boot mice. -/
theorem interfaceDriver_iff {driver : ClassDriver} : interfaceDriver (bytesOf d) = some driver ↔
    IsBoot d driver.kind ∧ driver.interfaceNumber = bytesOf d 2 := by
  obtain ⟨kind, number⟩ := driver
  constructor
  · intro hdriver
    unfold interfaceDriver newClassDriver at hdriver
    split at hdriver
    · next htype =>
      split at hdriver
      · next hboot =>
        split at hdriver
        · next hkeyboard =>
          cases hdriver
          exact ⟨⟨htype, hboot.1, hboot.2, hkeyboard⟩, rfl⟩
        · split at hdriver
          · next hmouse =>
            cases hdriver
            exact ⟨⟨htype, hboot.1, hboot.2, hmouse⟩, rfl⟩
          · cases hdriver
      · cases hdriver
    · cases hdriver
  · rintro ⟨⟨htype, hclass, hsub, hprotocol⟩, hnumber⟩
    rw [interfaceDriver, if_pos (show _ = interfaceType from htype), newClassDriver,
      if_pos ⟨hclass, hsub⟩, hprotocol]
    cases hnumber
    cases kind with
    | keyboard => rfl
    | mouse => rfl

theorem interfaceDriver_none_iff :
    interfaceDriver (bytesOf d) = none ↔ ∀ kind, ¬ IsBoot d kind := by
  constructor
  · intro hnone kind hboot
    have hsome := interfaceDriver_iff.mpr (show IsBoot d (ClassDriver.mk kind (bytesOf d 2)).kind ∧
      (ClassDriver.mk kind (bytesOf d 2)).interfaceNumber = _ from ⟨hboot, rfl⟩)
    rw [hnone] at hsome
    cases hsome
  · intro hno
    cases hdriver : interfaceDriver (bytesOf d) with
    | none => rfl
    | some driver => exact absurd (interfaceDriver_iff.mp hdriver).1 (hno _)

/-- `MakeEPConfig` takes the fields from where they are. -/
theorem makeEPConfig_eq : makeEPConfig (bytesOf d) = endpointOf d := by
  have hid : ∀ x : BitVec 8, EndpointID.make ((UInt8.ofBitVec x).toNat % 16)
      ((UInt8.ofBitVec x).toNat / 128 == 1) = ⟨2 * (UInt8.ofBitVec x &&& 0x0f).toNat +
        if UInt8.ofBitVec x &&& 0x80 = 0 then 0 else 1⟩ := by decide +kernel
  have htype : ∀ x : BitVec 8, EndpointType.ofCode (UInt8.ofBitVec x).toNat =
      if UInt8.ofBitVec x &&& 0x03 = 0 then .kControl
      else if UInt8.ofBitVec x &&& 0x03 = 1 then .kIsochronous
      else if UInt8.ofBitVec x &&& 0x03 = 2 then .kBulk
      else .kInterrupt := by decide +kernel
  have hsize : (bytesOf d 4).toNat + 256 * (bytesOf d 5).toNat =
      (bytesOf d 5).toNat <<< 8 ||| (bytesOf d 4).toNat := by
    rw [← Nat.shiftLeft_add_eq_or_of_lt (bytesOf d 4).toNat_lt, Nat.shiftLeft_eq]
    omega
  simp only [makeEPConfig, endpointOf, EndpointConfig.mk.injEq, and_true]
  exact ⟨hid (bytesOf d 2).toBitVec, htype (bytesOf d 3).toBitVec, hsize⟩

theorem endpointConfig_eq : endpointConfig (bytesOf d) =
    if bytesOf d 1 = 5 then some (endpointOf d) else none := by
  rw [endpointConfig, makeEPConfig_eq]
  rfl

theorem endpointOf_number : (endpointOf d).epId.number = endpointNumber d := by
  rw [EndpointID.number, Nat.shiftRight_eq_div_pow, endpointOf]
  split <;> simp only <;> omega

theorem endpointsOf_eq (rest : List (List UInt8)) :
    (rest.takeWhile fun e => bytesOf e 1 ≠ 4).filterMap (fun e => endpointConfig (bytesOf e)) =
      (endpointsOf rest).map endpointOf := by
  simp only [endpointConfig_eq, endpointsOf]
  generalize rest.takeWhile (fun e => decide (bytesOf e 1 ≠ 4)) = group
  induction group with
  | nil => rfl
  | cons e group ih =>
    by_cases hend : bytesOf e 1 = 5
    · simp [hend, ih]
    · simp [hend, ih]

end Fields

/-! ## The device behind the loop -/

section Device

variable {dev : Device} {driver : ClassDriver} (confs : List EndpointConfig)

theorem Device.slots_withEndpoints :
    slots (dev.withEndpoints driver confs).epConfigs confs.length = confs := by
  induction confs using List.reverseRecOn with
  | nil => rfl
  | append_singleton confs conf ih =>
    rw [withEndpoints_append, length_append, addEndpoint, numEpConfigs_withEndpoints]
    exact (slots_setSlot_push _ _ _).trans (congrArg (· ++ [conf]) ih)

variable {confs}

/-- The endpoints have the driver. -/
theorem Device.classDrivers_withEndpoints {conf : EndpointConfig} (hconf : conf ∈ confs) :
    (dev.withEndpoints driver confs).classDrivers conf.epId.number = some driver := by
  induction confs using List.reverseRecOn with
  | nil => cases hconf
  | append_singleton confs last ih =>
    rw [withEndpoints_append]
    show (if conf.epId.number = last.epId.number then some driver else
      (dev.withEndpoints driver confs).classDrivers conf.epId.number) = some driver
    split
    · rfl
    · next hne =>
      rcases mem_append.mp hconf with hconf | hlast
      · exact ih hconf
      · exact absurd (congrArg (·.epId.number) (mem_singleton.mp hlast)) hne

/-- The other slots are as before. -/
theorem Device.classDrivers_withEndpoints_off {i : Nat}
    (hi : ∀ conf ∈ confs, conf.epId.number ≠ i) :
    (dev.withEndpoints driver confs).classDrivers i = dev.classDrivers i := by
  induction confs using List.reverseRecOn with
  | nil => rfl
  | append_singleton confs last ih =>
    rw [withEndpoints_append]
    have hlast : i ≠ last.epId.number := fun heq => hi last (by simp) heq.symm
    exact (if_neg hlast).trans (ih fun conf hconf => hi conf (mem_append_left _ hconf))

end Device

/-! ## The block in the buffer -/

/-- A descriptor and the ones behind it, by its number. -/
theorem getElem_of_split {ds pre rest : List (List UInt8)} {d : List UInt8}
    (hds : ds = pre ++ d :: rest) :
    ∃ hlt : pre.length < ds.length, ds[pre.length] = d ∧ ds.drop (pre.length + 1) = rest := by
  subst hds
  refine ⟨by simp, by simp, ?_⟩
  rw [drop_append]
  simp

section Block

variable {head : List UInt8} {ds : List (List UInt8)} {b : Nat → UInt8} {i k : Nat}
  (hb : HoldsAt b 0 (head :: ds).flatten)
include hb

/-- Descriptor `i` is where the reader is after `i + 1` descriptors. -/
theorem ConfigurationBlock.holdsAt (h : ConfigurationBlock head ds) (hi : i < ds.length) :
    HoldsAt b (visit b (i + 1)) ds[i] :=
  holdsAt_visit h.sized hb (i := i + 1) (Nat.succ_lt_succ hi)

theorem ConfigurationBlock.inside (h : ConfigurationBlock head ds) (hi : i < ds.length) :
    (visit b (i + 1) : Int) < (head :: ds).flatten.length :=
  Int.ofNat_lt.mpr (visit_lt h.sized hb (i := i + 1) (Nat.succ_lt_succ hi))

theorem ConfigurationBlock.driverAt_eq (h : ConfigurationBlock head ds) (hi : i < ds.length) :
    driverAt b (visit b (i + 1)) = interfaceDriver (bytesOf ds[i]) := by
  have hholds := h.holdsAt hb hi
  have hmem : ds[i] ∈ ds := getElem_mem hi
  have htype := bytesAt_eq_bytesOf hholds (h.size _ hmem)
  refine interfaceDriver_congr htype fun hinterface o ho => ?_
  rw [htype] at hinterface
  exact bytesAt_eq_bytesOf hholds (ho.trans_le (h.interface_size _ hmem hinterface))

theorem ConfigurationBlock.endpointAt_eq (h : ConfigurationBlock head ds) (hi : i < ds.length) :
    endpointAt b (visit b (i + 1)) = endpointConfig (bytesOf ds[i]) := by
  have hholds := h.holdsAt hb hi
  have hmem : ds[i] ∈ ds := getElem_mem hi
  have htype := bytesAt_eq_bytesOf hholds (h.size _ hmem)
  refine endpointConfig_congr htype fun hendpoint o ho => ?_
  rw [htype] at hendpoint
  exact bytesAt_eq_bytesOf hholds (ho.trans_le (h.endpoint_size _ hmem hendpoint))

theorem ConfigurationBlock.head_byte (h : ConfigurationBlock head ds) (hi : i < 9) :
    b i = bytesOf head i := by
  have hholds : HoldsAt b (visit b 0) (head :: ds)[0] :=
    holdsAt_visit h.sized hb (Nat.succ_pos ds.length)
  have hbyte := bytesAt_eq_bytesOf hholds (hi.trans_le h.head_size)
  rwa [bytesAt, visit_zero, Nat.zero_add] at hbyte

/-- The search goes past descriptors without a driver. -/
theorem ConfigurationBlock.searching_take (h : ConfigurationBlock head ds) (hk : k ≤ ds.length)
    (hnone : ∀ d ∈ ds.take k, interfaceDriver (bytesOf d) = none) :
    Searching b (head :: ds).flatten.length k := by
  intro i hi hik
  obtain ⟨i, rfl⟩ := Nat.exists_eq_succ_of_ne_zero (Nat.pos_iff_ne_zero.mp hi)
  have hlt : i < ds.length := by omega
  refine ⟨h.inside hb hlt, ?_⟩
  rw [h.driverAt_eq hb hlt]
  refine hnone _ (mem_take_iff_getElem.mpr ⟨i, by omega, rfl⟩)

/-- What the loop over the endpoints takes from the descriptors behind an interface. -/
theorem ConfigurationBlock.found_eq (h : ConfigurationBlock head ds) {j : Nat}
    (hj : k + 1 + j ≤ ds.length) :
    found b k j = ((ds.drop (k + 1)).take j).filterMap fun d => endpointConfig (bytesOf d) := by
  induction j with
  | zero => rfl
  | succ j ih =>
    have hlt : k + 1 + j < ds.length := by omega
    have hend := h.endpointAt_eq hb hlt
    have hdrop : j < (ds.drop (k + 1)).length := by
      rw [length_drop]
      omega
    rw [found_succ, ih (by omega), take_succ_eq_append_getElem hdrop, filterMap_append,
      getElem_drop]
    rw [show k + 2 + j = k + 1 + j + 1 by omega, hend]
    cases hconf : endpointConfig (bytesOf ds[k + 1 + j]) with
    | none => simp [hconf]
    | some conf => simp [hconf]

/-- The loop ends with the endpoints of the interface. -/
theorem ConfigurationBlock.collecting_endpoints (h : ConfigurationBlock head ds)
    {pre rest : List (List UInt8)} {iface : List UInt8} (hds : ds = pre ++ iface :: rest)
    (hiface : bytesOf iface 1 = 4) :
    ∃ j, Collecting b (head :: ds).flatten.length pre.length j ∧
      found b pre.length j = (endpointsOf rest).map endpointOf ∧
      asked b pre.length ≤ (found b pre.length j).length := by
  obtain ⟨hcount, hroom⟩ := h.endpoints pre iface rest hds hiface
  obtain ⟨hlt, hget, hdrop⟩ := getElem_of_split hds
  have hlen : rest.length = ds.length - (pre.length + 1) := by
    rw [← hdrop, length_drop]
  -- `num_endpoints` is read from the interface descriptor
  have hasked : asked b pre.length = (endpointsOf rest).length := by
    have hholds := h.holdsAt hb hlt
    have hsize := h.interface_size iface (by rw [hds]; simp) hiface
    rw [hget] at hholds
    rw [hcount, asked]
    exact congrArg UInt8.toNat (bytesAt_eq_bytesOf hholds (by omega : 4 < iface.length))
  -- the endpoints all come before the next interface
  generalize hgroup : rest.takeWhile (fun e => bytesOf e 1 ≠ 4) = group
  have hprefix : group <+: rest := by
    rw [← hgroup]
    exact List.takeWhile_prefix _
  have hle : group.length ≤ rest.length := hprefix.length_le
  have hfound : found b pre.length group.length = (endpointsOf rest).map endpointOf := by
    rw [h.found_eq hb (by omega), hdrop, ← prefix_iff_eq_take.mp hprefix, ← hgroup,
      endpointsOf_eq]
  have hin : ∀ i < group.length, (visit b (pre.length + 2 + i) : Int) <
      (head :: ds).flatten.length := by
    intro i hi
    rw [show pre.length + 2 + i = pre.length + 1 + i + 1 by omega]
    exact h.inside hb (by omega)
  have henough : asked b pre.length ≤ (found b pre.length group.length).length := by
    rw [hfound, hasked, length_map]
  obtain ⟨j, hj, hcollecting, hdone⟩ := exists_collecting (by omega) hin henough
  refine ⟨j, hcollecting, ?_, Nat.le_of_eq hdone.symm⟩
  rw [← hfound]
  refine (found_initial b pre.length hj).eq_of_length ?_
  rw [hdone, hfound, hasked, length_map]

end Block

/-- **What `InitializePhase2` makes of a well-formed block.** -/
theorem initializePhase2_block {head : List UInt8} {ds : List (List UInt8)}
    (h : ConfigurationBlock head ds) {b : Nat → UInt8} (hb : HoldsAt b 0 (head :: ds).flatten)
    (dev : Device) :
    ((∀ d ∈ ds, ∀ kind, ¬ IsBoot d kind) →
      ∃ n, phase2 b (head :: ds).flatten.length dev n = .returned dev (.error .kSuccess)) ∧
    ∀ pre iface rest kind, ds = pre ++ iface :: rest → (∀ d ∈ pre, ∀ kind, ¬ IsBoot d kind) →
      IsBoot iface kind →
      ∃ n dev', phase2 b (head :: ds).flatten.length dev n =
          .returned dev' (.setConfiguration (bytesOf head 5)) ∧
        slots dev'.epConfigs dev'.numEpConfigs = (endpointsOf rest).map endpointOf ∧
        (∀ e ∈ endpointsOf rest,
          dev'.classDrivers (endpointNumber e) = some ⟨kind, bytesOf iface 2⟩) ∧
        (∀ i, (∀ e ∈ endpointsOf rest, endpointNumber e ≠ i) →
          dev'.classDrivers i = dev.classDrivers i) ∧
        dev'.initializePhase = 3 := by
  have htype : b 1 = configurationType := (h.head_byte hb (by decide)).trans h.head_type
  constructor
  · intro hnone
    -- every descriptor is passed in search of an interface
    refine reached_iff_phase2.mp (.out htype (n := ds.length) ?_ ?_)
    · exact h.searching_take hb (Nat.le_refl _) fun d hd =>
        interfaceDriver_none_iff.mpr (hnone d (mem_of_mem_take hd))
    · rw [visit_flatten h.sized hb (i := ds.length + 1) (Nat.le_refl _), take_of_length_le]
      exact Nat.le_refl _
  · intro pre iface rest kind hds hnone hboot
    have hdriver : interfaceDriver (bytesOf iface) = some ⟨kind, bytesOf iface 2⟩ :=
      interfaceDriver_iff.mpr ⟨hboot, rfl⟩
    obtain ⟨hlt, hget, -⟩ := getElem_of_split hds
    have hfirst : FirstDriver b (head :: ds).flatten.length pre.length ⟨kind, bytesOf iface 2⟩ := by
      constructor
      · refine h.searching_take hb (Nat.le_of_lt hlt) fun d hd =>
          interfaceDriver_none_iff.mpr (hnone d ?_)
        rw [hds, take_left'] at hd
        · exact hd
        · rfl
      · exact h.inside hb hlt
      · rw [h.driverAt_eq hb hlt, hget]
        exact hdriver
    -- from there on the endpoints are collected, to the end of the block
    obtain ⟨j, hcollecting, hfound, hdone⟩ := h.collecting_endpoints hb hds hboot.1
    have hreached : Reached b (head :: ds).flatten.length dev _ :=
      .done htype hfirst hcollecting hdone
    obtain ⟨n, hn⟩ := reached_iff_phase2.mp hreached
    rw [hfound, h.head_byte hb (by decide)] at hn
    refine ⟨n, _, hn, ?_, fun e he => ?_, fun i hi => ?_, rfl⟩
    · show slots (dev.withEndpoints _ ((endpointsOf rest).map endpointOf)).epConfigs
        (dev.withEndpoints _ ((endpointsOf rest).map endpointOf)).numEpConfigs = _
      rw [Device.numEpConfigs_withEndpoints, Device.slots_withEndpoints]
    · rw [← endpointOf_number]
      exact Device.classDrivers_withEndpoints (mem_map_of_mem he)
    · refine Device.classDrivers_withEndpoints_off fun conf hconf => ?_
      obtain ⟨e, he, rfl⟩ := mem_map.mp hconf
      rw [endpointOf_number]
      exact hi e he

/-- A storage interface with an endpoint, a mouse with a HID descriptor and an endpoint, and a
keyboard. -/
def sampleDescriptors : List (List UInt8) :=
  [[9, 4, 0, 0, 1, 8, 6, 80, 0], [7, 5, 0x81, 2, 64, 0, 0],
    [9, 4, 1, 0, 1, 3, 1, 2, 0], [9, 33, 0x11, 1, 0, 1, 34, 52, 0], [7, 5, 0x82, 3, 8, 0, 10],
    [9, 4, 2, 0, 1, 3, 1, 1, 0], [7, 5, 0x83, 3, 8, 0, 10]]

def sampleHead : List UInt8 := [9, 2, 66, 0, 3, 1, 0, 0x80, 50]

theorem sampleBlock : ConfigurationBlock sampleHead sampleDescriptors := by
  have hendpoints : ∀ i : Fin sampleDescriptors.length,
      bytesOf sampleDescriptors[i] 1 = 4 →
        (endpointsOf (sampleDescriptors.drop (i + 1))).length =
          (bytesOf sampleDescriptors[i] 4).toNat ∧ (bytesOf sampleDescriptors[i] 4).toNat ≤ 16 := by
    decide
  refine ⟨by decide, by decide, by decide, by decide, by decide, by decide, ?_⟩
  intro pre d rest hds htype
  obtain ⟨hlt, hget, hdrop⟩ := getElem_of_split hds
  have hi := hendpoints ⟨pre.length, hlt⟩
  rw [Fin.getElem_fin, hget, hdrop] at hi
  exact hi htype

/-- The mouse is taken, with its endpoint. -/
theorem initializePhase2_block_mouse :
    ∃ n dev', phase2 (bytesOf (sampleHead :: sampleDescriptors).flatten)
        (sampleHead :: sampleDescriptors).flatten.length sampleDevice n =
          .returned dev' (.setConfiguration 1) ∧
      slots dev'.epConfigs dev'.numEpConfigs = [⟨⟨5⟩, .kInterrupt, 8, 10⟩] ∧
      dev'.classDrivers 2 = some ⟨.mouse, 1⟩ ∧ dev'.initializePhase = 3 := by
  obtain ⟨n, dev', hn, hslots, hdrivers, -, hphase⟩ :=
    (initializePhase2_block sampleBlock (holdsAt_bytesOf _) sampleDevice).2
      (sampleDescriptors.take 2) [9, 4, 1, 0, 1, 3, 1, 2, 0] (sampleDescriptors.drop 3) .mouse
      rfl (fun d hd kind => by revert d; cases kind <;> decide) (by decide)
  exact ⟨n, dev', hn, hslots, hdrivers [7, 5, 0x82, 3, 8, 0, 10] (by decide), hphase⟩

end UnagiOs.Usb
