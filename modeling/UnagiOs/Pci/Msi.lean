import UnagiOs.Pci.Config
import UnagiOs.Theory.BitField
import UnagiOs.Theory.NullChain

/-!
# Message signalled interrupts

`ConfigureMSI` follows the capabilities of a device from the pointer in its register 0x34 on, by
the next pointer of each, up to a pointer that is 0. It then writes the message address and the
message data to the MSI capability it has seen last.

- `MsiHandled`: the walk ends, and the MSI capability at the end of it is configured.
- `configureMsi_handled_iff`: this is so exactly if the pointers do not lead back. The walk keeps
  no count and no record of where it has been.
-/

namespace UnagiOs

open List

/-! ## The code -/

/-- `kCapabilityMSI`. -/
def kCapabilityMSI : BitVec 8 := 0x05

/-- `kCapabilityMSIX`. -/
def kCapabilityMSIX : BitVec 8 := 0x11

/-! The fields of `CapabilityHeader` and of the header of `MSICapability`. -/

section Fields

variable (header : BitVec 32)

def capId : BitVec 8 := header.extractLsb' 0 8
def nextPtr : BitVec 8 := header.extractLsb' 8 8
def msiEnable : BitVec 1 := header.extractLsb' 16 1
def multiMsgCapable : BitVec 3 := header.extractLsb' 17 3
def multiMsgEnable : BitVec 3 := header.extractLsb' 20 3
def addr64Capable : BitVec 1 := header.extractLsb' 23 1
def perVectorMaskCapable : BitVec 1 := header.extractLsb' 24 1

end Fields

/-- `MSICapability`. -/
structure MsiCapability where
  header : BitVec 32
  msgAddr : BitVec 32
  msgUpperAddr : BitVec 32
  msgData : BitVec 32
  maskBits : BitVec 32
  pendingBits : BitVec 32

/-- Where the message data of a capability with this header is. -/
def msgDataAddr (header : BitVec 32) (capAddr : BitVec 8) : BitVec 8 :=
  if addr64Capable header ≠ 0 then capAddr + 12 else capAddr + 8

section Code

variable (conf : PciSpace) (dev : PciDevice)

/-- `ReadMSICapability`. -/
def readMsiCapability (capAddr : BitVec 8) : MsiCapability :=
  let header := readConfReg conf dev capAddr
  let dataAddr := msgDataAddr header capAddr
  { header := header
    msgAddr := readConfReg conf dev (capAddr + 4)
    msgUpperAddr := if addr64Capable header ≠ 0 then readConfReg conf dev (capAddr + 8) else 0
    msgData := readConfReg conf dev dataAddr
    maskBits := if perVectorMaskCapable header ≠ 0 then readConfReg conf dev (dataAddr + 4) else 0
    pendingBits :=
      if perVectorMaskCapable header ≠ 0 then readConfReg conf dev (dataAddr + 8) else 0 }

/-- `WriteMSICapability`. -/
def writeMsiCapability (capAddr : BitVec 8) (cap : MsiCapability) : PciSpace :=
  let dataAddr := msgDataAddr cap.header capAddr
  let conf := writeConfReg conf dev capAddr cap.header
  let conf := writeConfReg conf dev (capAddr + 4) cap.msgAddr
  let conf := if addr64Capable cap.header ≠ 0 then
    writeConfReg conf dev (capAddr + 8) cap.msgUpperAddr else conf
  let conf := writeConfReg conf dev dataAddr cap.msgData
  if perVectorMaskCapable cap.header ≠ 0 then
    writeConfReg (writeConfReg conf dev (dataAddr + 4) cap.maskBits) dev (dataAddr + 8)
      cap.pendingBits
  else conf

/-- `ConfigureMSIRegister`. -/
def configureMsiRegister (capAddr : BitVec 8) (msgAddr msgData : BitVec 32)
    (numVectorExponent : Nat) : PciSpace × Error :=
  let cap := readMsiCapability conf dev capAddr
  let capable := (multiMsgCapable cap.header).toNat
  let enable := if capable ≤ numVectorExponent then capable else numVectorExponent
  let header := setField (setField cap.header 20 3 enable) 16 1 1
  (writeMsiCapability conf dev capAddr
    { cap with header := header, msgAddr := msgAddr, msgData := msgData }, .kSuccess)

/-- `ConfigureMSIXRegister`. -/
def configureMsixRegister (_capAddr : BitVec 8) (_msgAddr _msgData : BitVec 32)
    (_numVectorExponent : Nat) : PciSpace × Error :=
  (conf, .kNotImplemented)

/-- `ReadCapabilityHeader`. -/
def readCapabilityHeader (addr : BitVec 8) : BitVec 32 := readConfReg conf dev addr

/-- The pointer to the first capability. -/
def capabilityPointer : BitVec 8 := (readConfReg conf dev 0x34 &&& 0xff#32).setWidth 8

/-- The pointer to the capability after one. -/
def nextCapability (addr : BitVec 8) : BitVec 8 := nextPtr (readCapabilityHeader conf dev addr)

/-- A round of the walk: `msi_cap_addr` and `msix_cap_addr`. -/
def noteCapability (found : BitVec 8 × BitVec 8) (addr : BitVec 8) : BitVec 8 × BitVec 8 :=
  let header := readCapabilityHeader conf dev addr
  if capId header = kCapabilityMSI then (addr, found.2)
  else if capId header = kCapabilityMSIX then (found.1, addr)
  else found

/-- `ConfigureMSI` behind the walk. -/
def configureFound (msgAddr msgData : BitVec 32) (numVectorExponent : Nat)
    (found : BitVec 8 × BitVec 8) : PciSpace × Error :=
  if found.1 ≠ 0 then configureMsiRegister conf dev found.1 msgAddr msgData numVectorExponent
  else if found.2 ≠ 0 then
    configureMsixRegister conf found.2 msgAddr msgData numVectorExponent
  else (conf, .kNoPCIMSI)

/-- `ConfigureMSI`, stuck if the walk has not ended after `n` rounds. -/
def configureMsi (n : Nat) (msgAddr msgData : BitVec 32) (numVectorExponent : Nat) :
    Option (PciSpace × Error) :=
  (follow (nextCapability conf dev) 0 (noteCapability conf dev) n (capabilityPointer conf dev)
    (0, 0)).map (configureFound conf dev msgAddr msgData numVectorExponent)

end Code

/-! ## What is configured -/

section Spec

variable (conf : PciSpace) (dev : PciDevice) (msgAddr msgData : BitVec 32)
  (numVectorExponent : Nat)

/-- There is an MSI capability at the address. -/
def IsMsi (addr : BitVec 8) : Prop := capId (readCapabilityHeader conf dev addr) = kCapabilityMSI

instance : DecidablePred (IsMsi conf dev) := fun _ => inferInstanceAs (Decidable (_ = _))

/-- The capability is enabled, with as many vectors as asked for and as it can do, and holds the
message. -/
structure MsiConfigured (conf' : PciSpace) (addr : BitVec 8) : Prop where
  enabled : msiEnable (readConfReg conf' dev addr) = 1
  vectors : (multiMsgEnable (readConfReg conf' dev addr)).toNat =
    min (multiMsgCapable (readConfReg conf dev addr)).toNat numVectorExponent
  address : readConfReg conf' dev (addr + 4) = msgAddr
  data : readConfReg conf' dev (msgDataAddr (readConfReg conf dev addr) addr) = msgData

/-- `ConfigureMSI` comes back, and has configured the last of the MSI capabilities that the
pointers lead to. -/
def MsiHandled : Prop :=
  ∃ n conf' e, configureMsi conf dev n msgAddr msgData numVectorExponent = some (conf', e) ∧
    ∀ l, NullChain (nextCapability conf dev) 0 (capabilityPointer conf dev) l →
      ∀ addr ∈ (l.filter (IsMsi conf dev ·)).getLast?,
        e = .kSuccess ∧ MsiConfigured conf dev msgAddr msgData numVectorExponent conf' addr

/-- The pointer after `k` capabilities. -/
def capabilityAt (k : Nat) : BitVec 8 := (nextCapability conf dev)^[k] (capabilityPointer conf dev)

end Spec

/-! ## The registers of a capability -/

section Registers

variable {conf : PciSpace} {dev : PciDevice} {cap : MsiCapability} {addr : BitVec 8} {i : Nat}
  {v : BitVec 32} {ws : List (Nat × BitVec 32)}

/-- The words of a capability. -/
def wordAddr (addr : BitVec 8) (i : Nat) : BitVec 8 := addr + BitVec.ofNat 8 (4 * i)

/-- Writes to words of a capability, one after the other. -/
def writeWords (conf : PciSpace) (dev : PciDevice) (addr : BitVec 8)
    (ws : List (Nat × BitVec 32)) : PciSpace :=
  ws.foldl (fun conf w => writeConfReg conf dev (wordAddr addr w.1) w.2) conf

/-- Up to 64 words are different registers, also where their addresses wrap around. -/
theorem wordAddr_ne (addr : BitVec 8) {j : Nat} (hi : i < 64) (hj : j < 64) (hij : i ≠ j) :
    (wordAddr addr i).toNat / 4 ≠ (wordAddr addr j).toNat / 4 := by
  rw [wordAddr, wordAddr, BitVec.toNat_add, BitVec.toNat_add, BitVec.toNat_ofNat,
    BitVec.toNat_ofNat]
  have hlt := addr.isLt
  omega

/-- Words at different places are all read back. -/
theorem readConfReg_writeWords (hws : ∀ w ∈ ws, w.1 < 64) (hnodup : (ws.map Prod.fst).Nodup)
    (hmem : (i, v) ∈ ws) : readConfReg (writeWords conf dev addr ws) dev (wordAddr addr i) = v := by
  -- over the writes from the last one on
  induction ws using List.reverseRecOn with
  | nil => cases hmem
  | append_singleton ws w ih =>
    rw [writeWords, foldl_append, foldl_cons, foldl_nil, readConfReg_writeConfReg]
    rw [map_append, nodup_append] at hnodup
    rcases mem_append.mp hmem with hmem' | hlast
    · have hne : w.1 ≠ i := fun heq =>
        hnodup.2.2 i (mem_map_of_mem hmem') w.1 (by simp) heq.symm
      have hwi := wordAddr_ne addr (hws w (by simp)) (hws _ hmem) hne
      rw [if_neg hwi]
      exact ih (fun w hw => hws w (mem_append_left _ hw)) hnodup.1 hmem'
    · obtain rfl : (i, v) = w := mem_singleton.mp hlast
      exact if_pos rfl

/-- The word of the message data. -/
def dataWord (header : BitVec 32) : Nat := if addr64Capable header ≠ 0 then 3 else 2

theorem msgDataAddr_eq (header : BitVec 32) (addr : BitVec 8) :
    msgDataAddr header addr = wordAddr addr (dataWord header) := by
  unfold msgDataAddr dataWord
  split
  · rfl
  · rfl

/-- What `WriteMSICapability` writes. -/
def msiWords (cap : MsiCapability) : List (Nat × BitVec 32) :=
  [(0, cap.header), (1, cap.msgAddr)] ++
    (if addr64Capable cap.header ≠ 0 then [(2, cap.msgUpperAddr)] else []) ++
    [(dataWord cap.header, cap.msgData)] ++
    if perVectorMaskCapable cap.header ≠ 0 then
      [(dataWord cap.header + 1, cap.maskBits), (dataWord cap.header + 2, cap.pendingBits)]
    else []

theorem wordAddr_add (addr : BitVec 8) (i j : Nat) :
    wordAddr addr i + BitVec.ofNat 8 (4 * j) = wordAddr addr (i + j) := by
  rw [wordAddr, wordAddr, BitVec.add_assoc, ← BitVec.ofNat_add, ← Nat.mul_add]

theorem writeMsiCapability_eq :
    writeMsiCapability conf dev addr cap = writeWords conf dev addr (msiWords cap) := by
  have hzero : wordAddr addr 0 = addr := BitVec.add_zero addr
  have hmask : ∀ i, wordAddr addr i + 4 = wordAddr addr (i + 1) := fun i => wordAddr_add addr i 1
  have hpending : ∀ i, wordAddr addr i + 8 = wordAddr addr (i + 2) := fun i => wordAddr_add addr i 2
  rw [writeMsiCapability, msgDataAddr_eq, hmask, hpending]
  simp only [writeWords, msiWords, foldl_append, foldl_cons, foldl_nil, hzero]
  split
  · split
    · rfl
    · rfl
  · split
    · rfl
    · rfl

/-- The words that are written are the first ones of the capability. -/
theorem msiWords_keys (cap : MsiCapability) :
    ∃ k, (msiWords cap).map Prod.fst = (List.range 6).take k := by
  unfold msiWords dataWord
  split
  · split
    · exact ⟨6, rfl⟩
    · exact ⟨4, rfl⟩
  · split
    · exact ⟨5, rfl⟩
    · exact ⟨3, rfl⟩

theorem readConfReg_writeMsiCapability (hmem : (i, v) ∈ msiWords cap) :
    readConfReg (writeMsiCapability conf dev addr cap) dev (wordAddr addr i) = v := by
  obtain ⟨k, hkeys⟩ := msiWords_keys cap
  rw [writeMsiCapability_eq]
  refine readConfReg_writeWords (fun w hw => ?_) ?_ hmem
  · have hw : w.1 ∈ (List.range 6).take k := by
      rw [← hkeys]
      exact mem_map_of_mem hw
    exact (mem_range.mp (mem_of_mem_take hw)).trans (by decide)
  · rw [hkeys]
    exact nodup_range.sublist (take_sublist k _)

/-- What the assignments to `multi_msg_enable` and `msi_enable` leave in the header. -/
theorem setField_msiHeader (header : BitVec 32) {enable : Nat} (henable : enable < 8) :
    msiEnable (setField (setField header 20 3 enable) 16 1 1) = 1 ∧
      (multiMsgEnable (setField (setField header 20 3 enable) 16 1 1)).toNat = enable ∧
      addr64Capable (setField (setField header 20 3 enable) 16 1 1) = addr64Capable header := by
  refine ⟨?_, ?_, ?_⟩
  · rw [msiEnable, extract_setField (by decide)]
    rfl
  · rw [multiMsgEnable, extract_setField_off (by decide) (by decide), extract_setField (by decide),
      BitVec.toNat_ofNat]
    exact Nat.mod_eq_of_lt henable
  · rw [addr64Capable, extract_setField_off (by decide) (by decide),
      extract_setField_off (by decide) (by decide)]
    rfl

/-- From the fields of the capability to what the device is configured for. -/
theorem msiConfigured_of_write (cap : MsiCapability) {numVectorExponent : Nat}
    (henabled : msiEnable cap.header = 1)
    (hvectors : (multiMsgEnable cap.header).toNat =
      min (multiMsgCapable (readConfReg conf dev addr)).toNat numVectorExponent)
    (hwide : addr64Capable cap.header = addr64Capable (readConfReg conf dev addr)) :
    MsiConfigured conf dev cap.msgAddr cap.msgData numVectorExponent
      (writeMsiCapability conf dev addr cap) addr := by
  have hread : ∀ w ∈ msiWords cap,
      readConfReg (writeMsiCapability conf dev addr cap) dev (wordAddr addr w.1) = w.2 :=
    fun w hw => readConfReg_writeMsiCapability hw
  have hheader := hread (0, cap.header) (by simp [msiWords])
  rw [show wordAddr addr 0 = addr from BitVec.add_zero addr] at hheader
  constructor
  · rw [hheader]
    exact henabled
  · rw [hheader]
    exact hvectors
  · exact hread (1, cap.msgAddr) (by simp [msiWords])
  · have hword : dataWord (readConfReg conf dev addr) = dataWord cap.header := by
      rw [dataWord, ← hwide, dataWord]
    rw [msgDataAddr_eq, hword]
    exact hread (dataWord cap.header, cap.msgData) (by simp [msiWords])

/-- **The capability is configured.** -/
theorem configureMsiRegister_configured (conf : PciSpace) (dev : PciDevice) (addr : BitVec 8)
    (msgAddr msgData : BitVec 32) (numVectorExponent : Nat) :
    MsiConfigured conf dev msgAddr msgData numVectorExponent
      (configureMsiRegister conf dev addr msgAddr msgData numVectorExponent).1 addr := by
  have hcapable := (multiMsgCapable (readConfReg conf dev addr)).isLt
  have hlt : (if (multiMsgCapable (readConfReg conf dev addr)).toNat ≤ numVectorExponent then
      (multiMsgCapable (readConfReg conf dev addr)).toNat else numVectorExponent) < 8 := by
    split
    · exact hcapable
    · omega
  obtain ⟨henabled, hvectors, hwide⟩ := setField_msiHeader (readConfReg conf dev addr) hlt
  rw [← Nat.min_def] at hvectors
  exact msiConfigured_of_write { readMsiCapability conf dev addr with
    header := setField (setField (readConfReg conf dev addr) 20 3 _) 16 1 1
    msgAddr := msgAddr, msgData := msgData } henabled hvectors hwide

end Registers

/-! ## The walk -/

section Walk

variable (conf : PciSpace) (dev : PciDevice) (msgAddr msgData : BitVec 32)
  (numVectorExponent : Nat)

theorem noteCapability_fst (found : BitVec 8 × BitVec 8) (addr : BitVec 8) :
    (noteCapability conf dev found addr).1 = if IsMsi conf dev addr then addr else found.1 := by
  unfold noteCapability
  by_cases hmsi : capId (readCapabilityHeader conf dev addr) = kCapabilityMSI
  · rw [if_pos hmsi, if_pos (show IsMsi conf dev addr from hmsi)]
  · rw [if_neg hmsi, if_neg (show ¬ IsMsi conf dev addr from hmsi)]
    split
    · rfl
    · rfl

/-- The walk keeps the last MSI capability. -/
theorem foldl_noteCapability (l : List (BitVec 8)) :
    (l.foldl (noteCapability conf dev) (0, 0)).1 =
      (l.filter (IsMsi conf dev ·)).getLast?.getD 0 := by
  induction l using List.reverseRecOn with
  | nil => rfl
  | append_singleton l addr ih =>
    rw [foldl_append, foldl_cons, foldl_nil, filter_append, noteCapability_fst]
    by_cases hmsi : IsMsi conf dev addr
    · rw [if_pos hmsi, filter_cons_of_pos (by simpa using hmsi)]
      simp
    · rw [if_neg hmsi, filter_cons_of_neg (by simpa using hmsi), filter_nil,
        append_nil, ih]

/-- What `ConfigureMSI` does with the capabilities of a chain. -/
theorem configureMsi_of_chain {l : List (BitVec 8)}
    (hl : NullChain (nextCapability conf dev) 0 (capabilityPointer conf dev) l) :
    ∃ conf' e, configureMsi conf dev (l.length + 1) msgAddr msgData numVectorExponent =
        some (conf', e) ∧
      ∀ addr ∈ (l.filter (IsMsi conf dev ·)).getLast?,
        e = .kSuccess ∧ MsiConfigured conf dev msgAddr msgData numVectorExponent conf' addr := by
  have hfollow : follow (nextCapability conf dev) 0 (noteCapability conf dev) (l.length + 1)
      (capabilityPointer conf dev) (0, 0) = some (l.foldl (noteCapability conf dev) (0, 0)) :=
    follow_eq_some_iff.mpr ⟨l, hl, Nat.lt_succ_self _, rfl⟩
  generalize hfound : l.foldl (noteCapability conf dev) (0, 0) = found at hfollow
  refine ⟨(configureFound conf dev msgAddr msgData numVectorExponent found).1,
    (configureFound conf dev msgAddr msgData numVectorExponent found).2,
    congrArg (Option.map _) hfollow, fun addr haddr => ?_⟩
  have haddr' : found.1 = addr := by
    rw [← hfound, foldl_noteCapability, Option.mem_def.mp haddr, Option.getD_some]
  have hne : found.1 ≠ 0 := by
    rw [haddr']
    exact hl.ne_null addr (mem_filter.mp (mem_of_getLast? haddr)).1
  rw [configureFound, if_pos hne, haddr']
  exact ⟨rfl, configureMsiRegister_configured conf dev addr msgAddr msgData numVectorExponent⟩

/-- **The MSI capability is configured exactly if no pointer leads back**: as long as no pointer was
0, none was met before. -/
theorem configureMsi_handled_iff : MsiHandled conf dev msgAddr msgData numVectorExponent ↔
    ∀ j, (∀ k ≤ j, capabilityAt conf dev k ≠ 0) →
      ∀ i < j, capabilityAt conf dev i ≠ capabilityAt conf dev j := by
  have : Finite (BitVec 8) := Finite.of_injective BitVec.toFin fun _ _ => BitVec.eq_of_toFin_eq
  refine Iff.trans ?_ exists_nullChain_iff
  constructor
  · rintro ⟨n, conf', e, hrun, -⟩
    obtain ⟨found, hfollow, -⟩ := Option.map_eq_some_iff.mp hrun
    obtain ⟨l, hl, -⟩ := follow_eq_some_iff.mp hfollow
    exact ⟨l, hl⟩
  · rintro ⟨l, hl⟩
    obtain ⟨conf', e, hrun, hconfigured⟩ :=
      configureMsi_of_chain conf dev msgAddr msgData numVectorExponent hl
    refine ⟨l.length + 1, conf', e, hrun, fun l' hl' => ?_⟩
    rw [hl'.unique hl]
    exact hconfigured

end Walk

/-- An MSI capability at 0x40 that names itself as the next one. -/
def loopedCapability : PciSpace := fun address =>
  if address = 0x80000034#32 then 0x40#32
  else if address = 0x80000040#32 then 0x00004005#32
  else 0

/-- The walk does not end. -/
theorem configureMsi_looped :
    (∀ n, configureMsi loopedCapability ⟨0, 0, 0, 0, ⟨0, 0, 0⟩⟩ n 0xfee00000 0x41 0 = none) ∧
      ¬ MsiHandled loopedCapability ⟨0, 0, 0, 0, ⟨0, 0, 0⟩⟩ 0xfee00000 0x41 0 := by
  have hfollow : ∀ n s, follow (nextCapability loopedCapability ⟨0, 0, 0, 0, ⟨0, 0, 0⟩⟩) 0
      (noteCapability loopedCapability ⟨0, 0, 0, 0, ⟨0, 0, 0⟩⟩) n 0x40 s = none := by
    intro n
    induction n with
    | zero => exact fun s => rfl
    | succ n ih => exact fun s => ih _
  have hnone : ∀ n, configureMsi loopedCapability ⟨0, 0, 0, 0, ⟨0, 0, 0⟩⟩ n 0xfee00000 0x41 0 =
      none := by
    intro n
    rw [configureMsi]
    exact congrArg _ (hfollow n (0, 0))
  refine ⟨hnone, ?_⟩
  rintro ⟨n, conf', e, hrun, -⟩
  rw [hnone] at hrun
  cases hrun

end UnagiOs
