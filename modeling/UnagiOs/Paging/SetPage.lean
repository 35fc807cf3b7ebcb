import UnagiOs.Paging.Directory

/-!
# Setting pages (memory/paging/paging.c)

`paging_set_page` looks up the table of an address in the directory and assigns the fields of its
entry. On a directory whose entries point to different tables, `setPages_translate` says what the
walk finds after any sequence of calls: for each page the word of the last call for it, and for
the other pages what was there before.
-/

namespace UnagiOs

/-! ## The model -/

namespace TableEntry

def PWT : Nat := 3
def PCD : Nat := 4
def A : Nat := 5
def D : Nat := 6
def PAT : Nat := 7
def G : Nat := 8
def AVL : Nat := 9

end TableEntry

/-- `pd_table_set`, on the word of the entry. -/
def pdTableSet (e data : Nat) : Nat :=
  let e := setBits TableEntry.higherAddress 20 (data >>> 12 &&& 0xfffff) e
  let e := setBits TableEntry.AVL 3 (data >>> 9 &&& 0b111) e
  let e := setBits TableEntry.G 1 (data >>> 8 &&& 0x1) e
  let e := setBits TableEntry.PAT 1 (data >>> 7 &&& 0x1) e
  let e := setBits TableEntry.D 1 (data >>> 6 &&& 0x1) e
  let e := setBits TableEntry.A 1 (data >>> 5 &&& 0x1) e
  let e := setBits TableEntry.PCD 1 (data >>> 4 &&& 0x1) e
  let e := setBits TableEntry.PWT 1 (data >>> 3 &&& 0x1) e
  let e := setBits TableEntry.U_S 1 (data >>> 2 &&& 0x1) e
  let e := setBits TableEntry.R_W 1 (data >>> 1 &&& 0x1) e
  setBits TableEntry.P 1 (data &&& 0x1) e

/-- `align_addr_to_lower`. -/
def alignAddrToLower (val : Nat) : Nat :=
  let residual := val % pageOsPageSize
  if residual = 0 then val else val - residual

/-- `vaddress_to_page_indexes`: the indexes in the directory and in the table. -/
def vaddressToPageIndexes (virtualAddress : Nat) : Nat × Nat :=
  let virtualAddrAligned := alignAddrToLower virtualAddress
  (virtualAddrAligned / (pageOsPageSize * pageDirectoryTotalEntries),
    virtualAddrAligned % (pageOsPageSize * pageDirectoryTotalEntries) / pageOsPageSize)

/-- The field `higher_address` of a directory word, which is signed. -/
def higherAddress (e : Nat) : Int :=
  Int.bmod ((e >>> DirectoryEntry.higherAddress % 2 ^ 20 : Nat) : Int) (2 ^ 20)

/-- `(PAGE_TABLE_ENTRY_4KB *)(higher_address << 12)`; a pointer has 32 bits. -/
def tableAddress (e : Nat) : Nat := ((higherAddress e * 2 ^ 12) % 2 ^ 32).toNat

/-- `paging_set_page`, which returns 0. -/
def pagingSetPage (m : Mem) (dir virtualAddress data : Nat) : Mem :=
  let (dirIndex, tableIndex) := vaddressToPageIndexes virtualAddress
  let table := tableAddress (m (dir + 4 * dirIndex))
  m.write (table + 4 * tableIndex) (pdTableSet (m (table + 4 * tableIndex)) data)

/-- The arguments of a call. -/
structure PageSetting where
  virtualAddress : BitVec 32
  data : BitVec 32
  deriving DecidableEq, Repr

/-- Calls one after the other. -/
def setPages (dir : Nat) (m : Mem) (ops : List PageSetting) : Mem :=
  ops.foldl (fun m op => pagingSetPage m dir op.virtualAddress.toNat op.data.toNat) m

/-! ## Translation -/

/-- The table that the hardware finds in an entry of the directory. -/
def tableAt (m : Mem) (dir i : Nat) : Nat := m (dir + 4 * i) &&& frameMask

/-- A directory whose entries point to different tables, outside of it. They start on pages, as
everything that an entry can point to. -/
structure DistinctTables (m : Mem) (dir : Nat) : Prop where
  distinct : ∀ i < 1024, ∀ j < 1024, tableAt m dir i = tableAt m dir j → i = j
  apart : ∀ i < 1024, ∀ j < 1024, ∀ k < 1024, dir + 4 * k ≠ tableAt m dir i + 4 * j

/-- What the walk finds for an address: the physical address and the attributes of the page. -/
def translate (m : Mem) (dir va : Nat) : Nat × Nat :=
  (walk m 32 twoLevel dir va, (walkEntries m twoLevel dir va).getLastD 0 &&& 0xfff)

/-- The last call for the page of an address. -/
def lastSet (ops : List PageSetting) (va : BitVec 32) : Option PageSetting :=
  ops.reverse.find? fun op => op.virtualAddress.toNat / 4096 = va.toNat / 4096

/-! ## The words -/

section Words

variable {e data i : Nat}

/-- Each bit of the word: the fields are where the data has them. -/
theorem testBit_pdTableSet :
    (pdTableSet e data).testBit i = if i < 32 then data.testBit i else e.testBit i := by
  simp only [pdTableSet, testBit_setBits, TableEntry.P, TableEntry.R_W, TableEntry.U_S,
    TableEntry.PWT, TableEntry.PCD, TableEntry.A, TableEntry.D, TableEntry.PAT, TableEntry.G,
    TableEntry.AVL, TableEntry.higherAddress]
  have h3 : ∀ j < 3, Nat.testBit 0b111 j = true := by decide
  have h20 : ∀ j < 20, Nat.testBit 0xfffff j = true := by decide
  by_cases hlow : i < 12
  · interval_cases i <;> simp [Nat.testBit_and, Nat.testBit_shiftRight, h3]
  · rw [if_neg (by omega), if_neg (by omega), if_neg (by omega), if_neg (by omega),
      if_neg (by omega), if_neg (by omega), if_neg (by omega), if_neg (by omega),
      if_neg (by omega), if_neg (by omega)]
    by_cases hhigh : i < 32
    · rw [if_pos (by omega), if_pos hhigh, Nat.testBit_and, Nat.testBit_shiftRight,
        h20 (i - 12) (by omega), Bool.and_true]
      congr 1
      omega
    · rw [if_neg (by omega), if_neg hhigh]

theorem pdTableSet_frame : pdTableSet e data &&& frameMask = data &&& frameMask := by
  refine Nat.eq_of_testBit_eq fun j => ?_
  rw [Nat.testBit_and, Nat.testBit_and, testBit_pdTableSet, frameMask, bitMask,
    Nat.testBit_shiftLeft, Nat.testBit_two_pow_sub_one]
  by_cases hj : j < 32
  · rw [if_pos hj]
  · simp [show ¬ (j - 12 < 20) by omega]

theorem pdTableSet_attributes : pdTableSet e data &&& 0xfff = data &&& 0xfff := by
  have hmask : ∀ j, Nat.testBit 0xfff j = decide (j < 12) := Nat.testBit_two_pow_sub_one 12
  refine Nat.eq_of_testBit_eq fun j => ?_
  rw [Nat.testBit_and, Nat.testBit_and, testBit_pdTableSet, hmask]
  by_cases hj : j < 32
  · rw [if_pos hj]
  · simp [show ¬ (j < 12) by omega]

/-- A signed field of 20 bits, shifted by 12 in a word of 32 bits. -/
theorem bmod_shifted {h : Nat} (hlt : h < 2 ^ 20) :
    ((Int.bmod (h : Int) (2 ^ 20) * 2 ^ 12) % 2 ^ 32).toNat = h * 2 ^ 12 := by
  have hfield : Int.bmod (h : Int) 1048576 = if h < 524288 then (h : Int) else h - 1048576 := by
    rw [Int.bmod_def]
    omega
  rw [show (2 ^ 20 : Nat) = 1048576 by decide, hfield]
  omega

/-- The shifted field is the address in the word, also where the field is negative. -/
theorem tableAddress_eq : tableAddress e = e &&& frameMask := by
  rw [frameMask, and_bitMask, ← Nat.shiftRight_eq_div_pow]
  exact bmod_shifted (Nat.mod_lt _ (by decide))

/-- What an entry points to starts on a page. -/
theorem frame_dvd : 4096 ∣ e &&& frameMask := by
  rw [frameMask, and_bitMask]
  exact Nat.dvd_mul_left _ _

end Words

/-! ## One call -/

section Step

variable {m : Mem} {dir va data : Nat}

/-- The indexes are the bits that the hardware takes. -/
theorem vaddressToPageIndexes_eq (hva : va < 2 ^ 32) :
    vaddressToPageIndexes va = (directoryLevel.index va, tableLevel.index va) := by
  have halign : alignAddrToLower va = va / 4096 * 4096 := by
    show (if va % 4096 = 0 then va else va - va % 4096) = _
    split
    · omega
    · omega
  simp only [vaddressToPageIndexes, halign, pageOsPageSize, pageDirectoryTotalEntries,
    PageLevel.index, directoryLevel, tableLevel, Nat.shiftRight_eq_div_pow, Prod.mk.injEq]
  omega

theorem index_lt (va : Nat) : directoryLevel.index va < 1024 ∧ tableLevel.index va < 1024 :=
  ⟨Nat.mod_lt _ (by decide), Nat.mod_lt _ (by decide)⟩

/-- Where the entry of the page of an address stands. -/
def entryAddress (m : Mem) (dir va : Nat) : Nat :=
  tableAt m dir (directoryLevel.index va) + 4 * tableLevel.index va

theorem pagingSetPage_eq (m : Mem) (dir : Nat) (hva : va < 2 ^ 32) (data : Nat) :
    pagingSetPage m dir va data =
      m.write (entryAddress m dir va) (pdTableSet (m (entryAddress m dir va)) data) := by
  simp only [pagingSetPage, vaddressToPageIndexes_eq hva, tableAddress_eq]
  rfl

/-- The walk reads the directory and then this entry. -/
theorem walkEntries_eq (m : Mem) (dir va : Nat) :
    walkEntries m twoLevel dir va =
      [m (dir + 4 * directoryLevel.index va), m (entryAddress m dir va)] := rfl

theorem translate_eq (m : Mem) (dir va : Nat) :
    translate m dir va = ((m (entryAddress m dir va) &&& frameMask) + va % 2 ^ 12,
      m (entryAddress m dir va) &&& 0xfff) := rfl

/-- The pages of a region have entries of their own. -/
theorem DistinctTables.entryAddress_inj (h : DistinctTables m dir) {va va' : Nat}
    (hva : va < 2 ^ 32) (hva' : va' < 2 ^ 32)
    (heq : entryAddress m dir va = entryAddress m dir va') : va / 4096 = va' / 4096 := by
  have hi := index_lt va
  have hi' := index_lt va'
  have hframe := frame_dvd (e := m (dir + 4 * directoryLevel.index va))
  have hframe' := frame_dvd (e := m (dir + 4 * directoryLevel.index va'))
  simp only [entryAddress, tableAt] at heq
  have htable : tableAt m dir (directoryLevel.index va) =
      tableAt m dir (directoryLevel.index va') := by
    unfold tableAt
    omega
  have hdir := h.distinct _ hi.1 _ hi'.1 htable
  rw [hdir] at heq
  simp only [PageLevel.index, directoryLevel, tableLevel, Nat.shiftRight_eq_div_pow] at hdir heq
  omega

/-- A call does not write to the directory. -/
theorem DistinctTables.directory (h : DistinctTables m dir) (hva : va < 2 ^ 32) {k : Nat}
    (hk : k < 1024) : pagingSetPage m dir va data (dir + 4 * k) = m (dir + 4 * k) := by
  rw [pagingSetPage_eq m dir hva]
  exact Mem.write_other _ _ (h.apart _ (index_lt va).1 _ (index_lt va).2 k hk)

theorem DistinctTables.setPage (h : DistinctTables m dir) (hva : va < 2 ^ 32) (data : Nat) :
    DistinctTables (pagingSetPage m dir va data) dir := by
  have htable : ∀ i < 1024, tableAt (pagingSetPage m dir va data) dir i = tableAt m dir i :=
    fun i hi => congrArg (· &&& frameMask) (h.directory hva hi)
  refine ⟨fun i hi j hj heq => ?_, fun i hi j hj k hk => ?_⟩
  · rw [htable i hi, htable j hj] at heq
    exact h.distinct i hi j hj heq
  · rw [htable i hi]
    exact h.apart i hi j hj k hk

theorem DistinctTables.entryAddress_setPage (h : DistinctTables m dir) (hva : va < 2 ^ 32)
    (data va' : Nat) :
    entryAddress (pagingSetPage m dir va data) dir va' = entryAddress m dir va' := by
  rw [entryAddress, tableAt, h.directory hva (index_lt va').1]
  rfl

/-- **One call**: the page of the address gets the word, the others keep theirs. -/
theorem DistinctTables.entry_setPage (h : DistinctTables m dir) (hva : va < 2 ^ 32) (data : Nat)
    {va' : Nat} (hva' : va' < 2 ^ 32) :
    pagingSetPage m dir va data (entryAddress m dir va') =
      if va / 4096 = va' / 4096 then pdTableSet (m (entryAddress m dir va')) data
      else m (entryAddress m dir va') := by
  rw [pagingSetPage_eq m dir hva]
  by_cases hpage : va / 4096 = va' / 4096
  · have hentry : entryAddress m dir va' = entryAddress m dir va := by
      simp only [entryAddress, PageLevel.index, directoryLevel, tableLevel,
        Nat.shiftRight_eq_div_pow]
      have hdir : va' / 2 ^ 22 = va / 2 ^ 22 := by omega
      have htab : va' / 2 ^ 12 = va / 2 ^ 12 := by omega
      rw [hdir, htab]
    rw [hentry, Mem.write_self, if_pos hpage]
  · have hne : entryAddress m dir va' ≠ entryAddress m dir va := fun heq =>
      hpage (h.entryAddress_inj hva hva' heq.symm)
    rw [Mem.write_other _ _ hne, if_neg hpage]

end Step

/-! ## Any number of calls -/

section Run

variable {m : Mem} {dir : Nat}

/-- The directory is never written to. -/
theorem DistinctTables.setPages_directory (h : DistinctTables m dir) (ops : List PageSetting)
    {k : Nat} (hk : k < 1024) : setPages dir m ops (dir + 4 * k) = m (dir + 4 * k) := by
  induction ops generalizing m with
  | nil => rfl
  | cons op ops ih =>
    have hva := op.virtualAddress.isLt
    exact (ih (h.setPage hva op.data.toNat)).trans (h.directory hva hk)

theorem lastSet_cons (op : PageSetting) (ops : List PageSetting) (va : BitVec 32) :
    lastSet (op :: ops) va = (lastSet ops va).or
      (if op.virtualAddress.toNat / 4096 = va.toNat / 4096 then some op else none) := by
  rw [lastSet, List.reverse_cons, List.find?_append, List.find?_singleton]
  simp only [decide_eq_true_eq]
  rfl

/-- **The entry of a page after any calls**: the data of the last call for the page. -/
theorem DistinctTables.entry_setPages (h : DistinctTables m dir) (ops : List PageSetting)
    (va : BitVec 32) :
    (∀ op ∈ lastSet ops va, ∃ e, setPages dir m ops (entryAddress m dir va.toNat) =
        pdTableSet e op.data.toNat) ∧
      (lastSet ops va = none → setPages dir m ops (entryAddress m dir va.toNat) =
        m (entryAddress m dir va.toNat)) := by
  induction ops generalizing m with
  | nil =>
    refine ⟨fun op hop => ?_, fun _ => rfl⟩
    cases hop
  | cons op ops ih =>
    have hva := op.virtualAddress.isLt
    have hkept := h.entryAddress_setPage hva op.data.toNat va.toNat
    have hstep := h.entry_setPage hva op.data.toNat va.isLt
    obtain ⟨hset, hnone⟩ := ih (h.setPage hva op.data.toNat)
    rw [hkept] at hset hnone
    rw [lastSet_cons]
    cases hlast : lastSet ops va with
    | some op' =>
      refine ⟨fun op'' hop => ?_, fun hno => ?_⟩
      · cases hop
        exact hset op' hlast
      · cases hno
    | none =>
      have hrest := hnone hlast
      rw [hstep] at hrest
      rw [Option.none_or]
      by_cases hpage : op.virtualAddress.toNat / 4096 = va.toNat / 4096
      · rw [if_pos hpage] at hrest ⊢
        refine ⟨fun op'' hop => ?_, fun hno => ?_⟩
        · cases hop
          exact ⟨_, hrest⟩
        · cases hno
      · rw [if_neg hpage] at hrest ⊢
        refine ⟨fun op'' hop => ?_, fun _ => hrest⟩
        cases hop

/-- **Setting pages**: after any sequence of calls the walk translates an address of a page that
was set as the data of the last call for the page says, and every other address as before, with
the same entries on the way. -/
theorem setPages_translate (h : DistinctTables m dir) (ops : List PageSetting) (va : BitVec 32) :
    (∀ op ∈ lastSet ops va, translate (setPages dir m ops) dir va.toNat =
        ((op.data.toNat &&& 0xfffff000) ||| va.toNat % 4096, op.data.toNat &&& 0xfff)) ∧
      (lastSet ops va = none →
        walk (setPages dir m ops) 32 twoLevel dir va.toNat = walk m 32 twoLevel dir va.toNat ∧
        walkEntries (setPages dir m ops) twoLevel dir va.toNat =
          walkEntries m twoLevel dir va.toNat) := by
  have hdir := h.setPages_directory ops (index_lt va.toNat).1
  have haddr : entryAddress (setPages dir m ops) dir va.toNat = entryAddress m dir va.toNat := by
    rw [entryAddress, tableAt, hdir]
    rfl
  obtain ⟨hset, hnone⟩ := h.entry_setPages ops va
  constructor
  · intro op hop
    obtain ⟨e, he⟩ := hset op hop
    have hframe : 2 ^ 12 ∣ op.data.toNat &&& frameMask := frame_dvd
    have hor : (op.data.toNat &&& frameMask) ||| va.toNat % 4096 =
        (op.data.toNat &&& frameMask) + va.toNat % 4096 :=
      or_flags_eq_add hframe (Nat.mod_lt _ (by decide))
    rw [translate_eq, haddr, he, pdTableSet_frame, pdTableSet_attributes]
    exact congrArg (·, op.data.toNat &&& 0xfff) hor.symm
  · intro hno
    have hentry := hnone hno
    constructor
    · show (setPages dir m ops (entryAddress (setPages dir m ops) dir va.toNat) &&& frameMask) +
          _ = _
      rw [haddr, hentry]
      rfl
    · rw [walkEntries_eq, walkEntries_eq, haddr, hentry, hdir]

end Run

/-- A directory at 0x1000 with its tables from 0x400000 on. -/
def sampleDirectory : Mem := fun w => 0x400007 + (w - 0x1000) / 4 * 0x1000

theorem sampleDirectory_distinct : DistinctTables sampleDirectory 0x1000 := by
  have htable : ∀ i < 1024, tableAt sampleDirectory 0x1000 i = 0x400000 + 0x1000 * i := by
    intro i hi
    rw [tableAt, sampleDirectory, and_frameMask (by omega)]
    omega
  refine ⟨fun i hi j hj heq => ?_, fun i hi j hj k hk => ?_⟩
  · rw [htable i hi, htable j hj] at heq
    omega
  · rw [htable i hi]
    omega

/-- The page at 0x7000 is set twice, with a page of another table in between. -/
theorem setPages_translate_twice :
    translate (setPages 0x1000 sampleDirectory
      [⟨0x7123, 0x5007⟩, ⟨0xffc07000, 0xaaaaafff⟩, ⟨0x7000, 0xfedcb003⟩]) 0x1000 0x7abc =
        (0xfedcbabc, 0x003) := by
  have h := (setPages_translate sampleDirectory_distinct
    [⟨0x7123, 0x5007⟩, ⟨0xffc07000, 0xaaaaafff⟩, ⟨0x7000, 0xfedcb003⟩] 0x7abc).1
      ⟨0x7000, 0xfedcb003⟩ rfl
  exact h

/-- A directory at 0x1000 whose last entry points to the directory itself, with the other tables
from 0x400000 on, all of them empty. -/
def selfMapped : Mem := fun w =>
  if w = 0x1ffc then 0x1007 else if w < 0x2000 then 0x400007 + (w - 0x1000) / 4 * 0x1000 else 0

/-- Tables that are different are not enough. Through the last entry of this directory a page is
set in the directory itself, and with it the whole first table is exchanged: the address 0, whose
page was not set, was at 0 without attributes and is at 0x1000 with 7 now. -/
theorem setPages_selfMapped :
    (∀ i < 1024, ∀ j < 1024, tableAt selfMapped 0x1000 i = tableAt selfMapped 0x1000 j → i = j) ∧
      lastSet [⟨0xffc00000, 0x1007⟩] 0 = none ∧ translate selfMapped 0x1000 0 = (0, 0) ∧
      translate (setPages 0x1000 selfMapped [⟨0xffc00000, 0x1007⟩]) 0x1000 0 = (0x1000, 7) := by
  refine ⟨fun i hi j hj heq => ?_, by decide, by decide, by decide⟩
  have htable : ∀ k < 1024, tableAt selfMapped 0x1000 k =
      if k = 1023 then 0x1000 else 0x400000 + 0x1000 * k := by
    intro k hk
    rw [tableAt, selfMapped]
    by_cases hlast : k = 1023
    · rw [if_pos (by omega), if_pos hlast]
      rfl
    · rw [if_neg (by omega), if_pos (by omega), and_frameMask (by omega), if_neg hlast]
      omega
  rw [htable i hi, htable j hj] at heq
  split at heq <;> split at heq <;> omega

end UnagiOs
