import UnagiOs.Kernel.Process
import UnagiOs.Theory.BitField
import UnagiOs.Theory.ByteMemory

/-!
# The global descriptor table (gdt/gdt.c)

The kernel copies the boot loader's table into its own, `gdts`, and appends a descriptor for the TSS
of each task. How many entries there are is worked out from the limit in the GDTR each time. The
scheduler does not keep the selectors that `gdt_append` returns: `mprocess_init` computes them from
the index of the task, and they agree because the boot loader's table has three entries.

A descriptor is a word of 64 bits, whose bit-fields `gdt_set_segmdesc` assigns one by one; `gdts` is
an array of bytes. A store behind its end is `none`.

- `gdtAppends_spec`: descriptors after the entries there are.
- `gdtAppends_import`: the same for an imported table, with what the entries decode to.
- `gdtAppends_taskDescriptors`: each task's selector selects its own TSS.
-/

namespace UnagiOs

open List

/-! ## Descriptors -/

/-- `gdt_set_segmdesc`. -/
def gdtSetSegmdesc (sd : BitVec 64) (limit base : BitVec 32) (ar : BitVec 8) : BitVec 64 :=
  let sd := setField sd 52 4 0xc
  let sd := setField sd 0 16 (limit &&& 0xffff).toNat
  let sd := setField sd 16 16 (base &&& 0xffff).toNat
  let sd := setField sd 32 8 (base >>> 16 &&& 0xff).toNat
  let sd := setField sd 40 8 (ar &&& 0xff).toNat
  let sd := setField sd 48 4 (limit >>> 16 &&& 0x0f).toNat
  setField sd 56 8 (base >>> 24 &&& 0xff).toNat

/-! What the processor reads from a descriptor. -/

def descriptorBase (sd : BitVec 64) : BitVec 32 :=
  sd.extractLsb' 56 8 ++ sd.extractLsb' 32 8 ++ sd.extractLsb' 16 16

def descriptorLimit (sd : BitVec 64) : BitVec 20 := sd.extractLsb' 48 4 ++ sd.extractLsb' 0 16

def descriptorAccess (sd : BitVec 64) : BitVec 8 := sd.extractLsb' 40 8

/-! ## The table -/

/-- `GDTR32`. -/
structure GDTR32 where
  limit : BitVec 16
  base : BitVec 32
  deriving DecidableEq, Repr

/-- The number of entries of `gdts`. -/
def gdtsMax : Nat := 8192

/-- `gdtr` and `gdts`. -/
structure Gdt where
  gdtr : GDTR32
  gdts : Nat → UInt8

/-- `__gdt_import`, from a memory with the source table in it. -/
def gdtImport (gdts : Nat → UInt8) (gdtsAddr : BitVec 32) (mem : Nat → UInt8)
    (gdtrSrc : GDTR32) : Gdt :=
  { gdtr := { limit := gdtrSrc.limit, base := gdtsAddr }
    gdts := fillSlots gdts 0 (fun j => mem (gdtrSrc.base.toNat + j)) (gdtrSrc.limit.toNat + 1) }

/-- `gdt_append`, with the selector. -/
def gdtAppend (g : Gdt) (d1 : BitVec 64) : Option (Gdt × Nat) :=
  let dLen := (g.gdtr.limit.toNat + 1) / 8
  if dLen < gdtsMax then
    some ({ gdtr := { g.gdtr with limit := g.gdtr.limit + 8 }
            gdts := fillSlots g.gdts (8 * dLen) (leBytes d1.toNat) 8 }, (dLen <<< 3) % 2 ^ 16)
  else none

/-- One `gdt_append` after the other, with the selectors. -/
def gdtAppends : Gdt → List (BitVec 64) → Option (Gdt × List Nat)
  | g, [] => some (g, [])
  | g, d1 :: ds =>
    (gdtAppend g d1).bind fun out =>
      (gdtAppends out.1 ds).map fun rest => (rest.1, out.2 :: rest.2)

namespace Gdt

/-- The descriptor at an index. -/
def entry (g : Gdt) (i : Nat) : BitVec 64 := BitVec.ofNat 64 (leLoad g.gdts (8 * i) 8)

/-- The table has `k` entries. -/
def HasEntries (g : Gdt) (k : Nat) : Prop := g.gdtr.limit.toNat + 1 = 8 * k

end Gdt

/-! ## The tasks -/

/-- `sizeof(TSS32)`. -/
def sizeofTSS32 : Nat := 27 * 4

/-- `&taskctl->tasks0[i].tss`: a `TASKCTL` starts with two words and ten levels of 102, and a `TASK`
with four words before the TSS. -/
def tssAddr (taskctl : BitVec 32) (i : Nat) : BitVec 32 :=
  taskctl + BitVec.ofNat 32 (2 * 4 + osMprocessTasklevelsMax * (102 * 4) +
    i * (4 * 4 + sizeofTSS32) + 4 * 4)

/-- The descriptors that `mprocess_init` appends. -/
def taskDescriptors (taskctl : BitVec 32) : List (BitVec 64) :=
  (List.range osMprocessTaskMax).map fun i =>
    gdtSetSegmdesc 0 (BitVec.ofNat 32 sizeofTSS32) (tssAddr taskctl i) 0x89

/-- The boot loader's table: `GDT_NULL`, `GDT_DATA` and `GDT_CODE`. -/
def bootGdt : List (BitVec 64) := [0, 0x00cf92000000ffff, 0x00c79a000000ffff]

/-- `GDT_DESCRIPTOR`, for a table at `GDT_START`. -/
def bootGdtr (gdtStart : BitVec 32) : GDTR32 :=
  { limit := BitVec.ofNat 16 (8 * bootGdt.length - 1), base := gdtStart }

/-! ## What a descriptor decodes to -/

section Decode

variable (sd : BitVec 64) (limit base : BitVec 32) (ar : BitVec 8)

/-- A masked part of a word, in a field of its width. -/
theorem ofNat_and_mask {w : Nat} (v : BitVec w) (lo len : Nat) :
    BitVec.ofNat len (v >>> lo &&& BitVec.ofNat w (2 ^ len - 1)).toNat = v.extractLsb' lo len := by
  rw [BitVec.ofNat_toNat]
  refine BitVec.eq_of_getLsbD_eq fun i hi => ?_
  rw [BitVec.getLsbD_setWidth, BitVec.getLsbD_and, BitVec.getLsbD_ushiftRight, BitVec.getLsbD_ofNat,
    Nat.testBit_two_pow_sub_one, BitVec.getLsbD_extractLsb']
  by_cases hw : i < w
  · simp [hi, hw]
  · rw [BitVec.getLsbD_of_ge v (lo + i) (by omega)]
    simp

theorem descriptorAccess_set : descriptorAccess (gdtSetSegmdesc sd limit base ar) = ar := by
  have har : BitVec.ofNat 8 (ar &&& 0xff).toNat = ar.extractLsb' 0 8 := by
    rw [← ofNat_and_mask ar 0 8, BitVec.ushiftRight_zero]
    rfl
  simp (disch := decide) only [descriptorAccess, gdtSetSegmdesc, extract_setField,
    extract_setField_off]
  rw [har, BitVec.extractLsb'_eq_self]

theorem descriptorLimit_set :
    descriptorLimit (gdtSetSegmdesc sd limit base ar) = limit.extractLsb' 0 20 := by
  have hlow : BitVec.ofNat 16 (limit &&& 0xffff).toNat = limit.extractLsb' 0 16 := by
    rw [← ofNat_and_mask limit 0 16, BitVec.ushiftRight_zero]
    rfl
  have hhigh : BitVec.ofNat 4 (limit >>> 16 &&& 0x0f).toNat = limit.extractLsb' 16 4 :=
    ofNat_and_mask limit 16 4
  simp (disch := decide) only [descriptorLimit, gdtSetSegmdesc, extract_setField,
    extract_setField_off]
  rw [hlow, hhigh]
  exact BitVec.extractLsb'_append_extractLsb'_eq_extractLsb' rfl

/-- The base is read back from the three places that it is cut into. -/
theorem descriptorBase_set : descriptorBase (gdtSetSegmdesc sd limit base ar) = base := by
  have hlow : BitVec.ofNat 16 (base &&& 0xffff).toNat = base.extractLsb' 0 16 := by
    rw [← ofNat_and_mask base 0 16, BitVec.ushiftRight_zero]
    rfl
  have hmid : BitVec.ofNat 8 (base >>> 16 &&& 0xff).toNat = base.extractLsb' 16 8 :=
    ofNat_and_mask base 16 8
  have hhigh : BitVec.ofNat 8 (base >>> 24 &&& 0xff).toNat = base.extractLsb' 24 8 :=
    ofNat_and_mask base 24 8
  simp (disch := decide) only [descriptorBase, gdtSetSegmdesc, extract_setField,
    extract_setField_off]
  rw [hlow, hmid, hhigh]
  have hupper : base.extractLsb' 24 8 ++ base.extractLsb' 16 8 = base.extractLsb' 16 16 :=
    BitVec.extractLsb'_append_extractLsb'_eq_extractLsb' rfl
  have hall : base.extractLsb' 16 16 ++ base.extractLsb' 0 16 = base.extractLsb' 0 32 :=
    BitVec.extractLsb'_append_extractLsb'_eq_extractLsb' rfl
  rw [hupper, hall, BitVec.extractLsb'_eq_self]

end Decode

/-! ## Appending -/

section Append

variable {g : Gdt} {k : Nat}

/-- **One descriptor.** -/
theorem gdtAppend_spec (h : g.HasEntries k) (hk : k < gdtsMax) (d1 : BitVec 64) :
    ∃ g', gdtAppend g d1 = some (g', k * 8) ∧ g'.HasEntries (k + 1) ∧ g'.entry k = d1 ∧
      ∀ i < k, g'.entry i = g.entry i := by
  have hlen : (g.gdtr.limit.toNat + 1) / 8 = k := by
    rw [h, Nat.mul_div_cancel_left k (by decide)]
  have hmax : gdtsMax = 8192 := rfl
  have hselector : (k <<< 3) % 2 ^ 16 = k * 8 := by
    rw [Nat.shiftLeft_eq]
    omega
  refine ⟨{ gdtr := { g.gdtr with limit := g.gdtr.limit + 8 }
            gdts := fillSlots g.gdts (8 * k) (leBytes d1.toNat) 8 }, ?_, ?_, ?_, fun i hi => ?_⟩
  · simp only [gdtAppend, hlen, if_pos hk, hselector]
  · show (g.gdtr.limit + 8).toNat + 1 = 8 * (k + 1)
    rw [Gdt.HasEntries] at h
    rw [BitVec.toNat_add]
    show (g.gdtr.limit.toNat + 8) % 2 ^ 16 + 1 = 8 * (k + 1)
    omega
  · show BitVec.ofNat 64 (leLoad (fillSlots g.gdts (8 * k) (leBytes d1.toNat) 8) (8 * k) 8) = d1
    have hfits : d1.toNat < 256 ^ 8 := d1.isLt
    rw [leLoad_fillSlots, Nat.mod_eq_of_lt hfits, BitVec.ofNat_toNat, BitVec.setWidth_eq]
  · show BitVec.ofNat 64 (leLoad (fillSlots g.gdts (8 * k) (leBytes d1.toNat) 8) (8 * i) 8) =
      BitVec.ofNat 64 (leLoad g.gdts (8 * i) 8)
    rw [leLoad_fillSlots_off (by omega)]

/-- **Any descriptors.** -/
theorem gdtAppends_spec (h : g.HasEntries k) (ds : List (BitVec 64))
    (hmax : k + ds.length ≤ gdtsMax) :
    ∃ g', gdtAppends g ds = some (g', (List.range ds.length).map fun i => (k + i) * 8) ∧
      g'.HasEntries (k + ds.length) ∧ (∀ i < k, g'.entry i = g.entry i) ∧
      ∀ i (hi : i < ds.length), g'.entry (k + i) = ds[i] := by
  induction ds generalizing g k with
  | nil => exact ⟨g, rfl, h, fun _ _ => rfl, fun i hi => absurd hi (Nat.not_lt_zero i)⟩
  | cons d1 ds ih =>
    rw [length_cons] at hmax
    obtain ⟨g₁, happend, hentries, hnew, hold⟩ := gdtAppend_spec h (by omega) d1
    obtain ⟨g', hrest, hentries', hold', hnew'⟩ := ih hentries (by omega)
    refine ⟨g', ?_, ?_, fun i hi => ?_, fun i hi => ?_⟩
    · have hshift : ((fun i => (k + i) * 8) ∘ Nat.succ) = fun i => (k + 1 + i) * 8 := by
        funext i
        show (k + (i + 1)) * 8 = (k + 1 + i) * 8
        omega
      rw [gdtAppends, happend, Option.bind_some, hrest, Option.map_some, length_cons,
        range_succ_eq_map, map_cons, map_map, hshift]
      rfl
    · rw [length_cons, Nat.add_comm ds.length, ← Nat.add_assoc]
      exact hentries'
    · rw [hold' i (by omega), hold i hi]
    · cases i with
      | zero => rw [Nat.add_zero, hold' k (by omega), hnew, getElem_cons_zero]
      | succ i =>
        rw [getElem_cons_succ, ← hnew' i (by simpa using hi)]
        congr 1
        omega

end Append

/-! ## The whole table -/

/-- A descriptor that `gdt_set_segmdesc` builds, from whatever was there. -/
structure SegmDesc where
  sd : BitVec 64
  limit : BitVec 32
  base : BitVec 32
  ar : BitVec 8

def SegmDesc.build (d : SegmDesc) : BitVec 64 := gdtSetSegmdesc d.sd d.limit d.base d.ar

theorem entry_import (gdts : Nat → UInt8) (gdtsAddr : BitVec 32) (mem : Nat → UInt8)
    {gdtrSrc : GDTR32} {i k : Nat} (hk : gdtrSrc.limit.toNat + 1 = 8 * k) (hi : i < k) :
    (gdtImport gdts gdtsAddr mem gdtrSrc).entry i =
      BitVec.ofNat 64 (leLoad mem (gdtrSrc.base.toNat + 8 * i) 8) := by
  refine congrArg (BitVec.ofNat 64) (leLoad_congr fun j hj => ?_)
  show fillSlots gdts 0 (fun j => mem (gdtrSrc.base.toNat + j)) (gdtrSrc.limit.toNat + 1)
    (8 * i + j) = mem (gdtrSrc.base.toNat + 8 * i + j)
  rw [fillSlots_apply, if_pos (by omega), Nat.sub_zero, Nat.add_assoc]

/-- **An imported table.** Descriptors appended to it leave its entries alone, get the next
selectors, and decode to what they were built from. -/
theorem gdtAppends_import (gdts : Nat → UInt8) (gdtsAddr : BitVec 32) (mem : Nat → UInt8)
    {gdtrSrc : GDTR32} {k : Nat} (hk : gdtrSrc.limit.toNat + 1 = 8 * k) (ds : List SegmDesc)
    (hmax : k + ds.length ≤ gdtsMax) : ∃ g',
    gdtAppends (gdtImport gdts gdtsAddr mem gdtrSrc) (ds.map SegmDesc.build) =
      some (g', (List.range ds.length).map fun i => (k + i) * 8) ∧
    g'.gdtr.limit.toNat = (k + ds.length) * 8 - 1 ∧
    (∀ i < k, g'.entry i = BitVec.ofNat 64 (leLoad mem (gdtrSrc.base.toNat + 8 * i) 8)) ∧
    ∀ i (hi : i < ds.length), descriptorBase (g'.entry (k + i)) = ds[i].base ∧
      descriptorLimit (g'.entry (k + i)) = ds[i].limit.extractLsb' 0 20 ∧
      descriptorAccess (g'.entry (k + i)) = ds[i].ar := by
  have hentries : (gdtImport gdts gdtsAddr mem gdtrSrc).HasEntries k := hk
  obtain ⟨g', happends, hentries', hold, hnew⟩ :=
    gdtAppends_spec hentries (ds.map SegmDesc.build) (by rwa [length_map])
  rw [length_map] at happends hentries'
  refine ⟨g', happends, ?_, fun i hi => ?_, fun i hi => ?_⟩
  · rw [Gdt.HasEntries] at hentries'
    omega
  · rw [hold i hi, entry_import gdts gdtsAddr mem hk hi]
  · rw [hnew i (by rwa [length_map]), getElem_map, SegmDesc.build]
    exact ⟨descriptorBase_set .., descriptorLimit_set .., descriptorAccess_set ..⟩

/-- **The tasks.** After the boot loader's table, the selector that `mprocess_init` gives to a task
selects the descriptor of its own TSS. -/
theorem gdtAppends_taskDescriptors (gdts : Nat → UInt8) (gdtsAddr : BitVec 32) (mem : Nat → UInt8)
    (gdtStart taskctl : BitVec 32) : ∃ g' selectors,
    gdtAppends (gdtImport gdts gdtsAddr mem (bootGdtr gdtStart)) (taskDescriptors taskctl) =
      some (g', selectors) ∧
    ∀ task : TaskId, descriptorBase
        (g'.entry ((mprocessInitTasks.tasks0 task).gdtSegmentSelector / 8)) =
      tssAddr taskctl task := by
  have hentries : (gdtImport gdts gdtsAddr mem (bootGdtr gdtStart)).HasEntries 3 := rfl
  have hlen : (taskDescriptors taskctl).length = osMprocessTaskMax := by
    rw [taskDescriptors, length_map, length_range]
  obtain ⟨g', happends, -, -, hnew⟩ :=
    gdtAppends_spec hentries (taskDescriptors taskctl) (by rw [hlen]; decide)
  refine ⟨g', _, happends, fun task => ?_⟩
  have hselector : (mprocessInitTasks.tasks0 task).gdtSegmentSelector / 8 = 3 + task :=
    Nat.mul_div_cancel _ (by decide)
  have htask : (task : Nat) < (taskDescriptors taskctl).length := by
    rw [hlen]
    exact task.isLt
  have hbuilt : (taskDescriptors taskctl)[(task : Nat)] = gdtSetSegmdesc 0
      (BitVec.ofNat 32 sizeofTSS32) (tssAddr taskctl task) 0x89 := by
    simp only [taskDescriptors, getElem_map, getElem_range]
  rw [hselector, hnew task htask, hbuilt, descriptorBase_set]

/-- **The table**, for any source and for the one of the boot loader. -/
theorem gdt_tasks (gdts : Nat → UInt8) (gdtsAddr : BitVec 32) (mem : Nat → UInt8) :
    (∀ (gdtrSrc : GDTR32) (k : Nat), gdtrSrc.limit.toNat + 1 = 8 * k →
      ∀ ds : List SegmDesc, k + ds.length ≤ gdtsMax → ∃ g',
        gdtAppends (gdtImport gdts gdtsAddr mem gdtrSrc) (ds.map SegmDesc.build) =
          some (g', (List.range ds.length).map fun i => (k + i) * 8) ∧
        g'.gdtr.limit.toNat = (k + ds.length) * 8 - 1 ∧
        (∀ i < k, g'.entry i = BitVec.ofNat 64 (leLoad mem (gdtrSrc.base.toNat + 8 * i) 8)) ∧
        ∀ i (hi : i < ds.length), descriptorBase (g'.entry (k + i)) = ds[i].base ∧
          descriptorLimit (g'.entry (k + i)) = ds[i].limit.extractLsb' 0 20 ∧
          descriptorAccess (g'.entry (k + i)) = ds[i].ar) ∧
    ∀ gdtStart taskctl : BitVec 32, ∃ g' selectors,
      gdtAppends (gdtImport gdts gdtsAddr mem (bootGdtr gdtStart)) (taskDescriptors taskctl) =
        some (g', selectors) ∧
      ∀ task : TaskId, descriptorBase
          (g'.entry ((mprocessInitTasks.tasks0 task).gdtSegmentSelector / 8)) =
        tssAddr taskctl task :=
  ⟨fun _ _ hk ds hmax => gdtAppends_import gdts gdtsAddr mem hk ds hmax,
    gdtAppends_taskDescriptors gdts gdtsAddr mem⟩

/-- Two descriptors behind the three entries of the boot loader, the second one of a TSS. -/
theorem gdt_tasks_two : ∃ g',
    gdtAppends (gdtImport (fun _ => 0) 0x5000 (fun _ => 0) (bootGdtr 0x7c00))
      ([⟨0, 0xfffff, 0, 0x92⟩, ⟨0, 103, 0x100000, 0x89⟩].map SegmDesc.build) = some (g', [24, 32]) ∧
    descriptorBase (g'.entry 4) = 0x100000 ∧ descriptorAccess (g'.entry 4) = 0x89 := by
  obtain ⟨g', happends, -, -, hnew⟩ := (gdt_tasks (fun _ => 0) 0x5000 fun _ => 0).1
    (bootGdtr 0x7c00) 3 rfl [⟨0, 0xfffff, 0, 0x92⟩, ⟨0, 103, 0x100000, 0x89⟩] (by decide)
  obtain ⟨hbase, -, haccess⟩ := hnew 1 (by decide)
  exact ⟨g', happends, hbase, haccess⟩

end UnagiOs
