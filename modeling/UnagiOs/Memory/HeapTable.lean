import UnagiOs.Theory.Bitmap
import UnagiOs.Util.Kutil

/-!
# The heap table (memory/heap.c)

The allocator that `OS_HEAP_MM_ALT` switches off: a table with one byte for each block of
4 KiB. The extent of an allocation is only in the flags of its entries: the first one has
`IS_FIRST`, all but the last one have `HAS_NEXT`.

- `heapGetStartBlock_spec`: the search counts a run of free entries, and what it answers is
  the *last* entry of the lowest run.
- `heapMalloc_spec`: so the blocks that are marked start at the end of the run that was found.
- `heapFree_heapMalloc_iff`: the loop of `heap_mark_blocks_free` returns in its first round, and
  a `heap_free` undoes the `heap_malloc` exactly if that took one block.

Entries are a function of the index. Those at `total_blocks` and beyond are memory that does
not belong to the table.
-/

namespace UnagiOs

/-- `HBLOCK_SIZE` -/
def hblockSize : Nat := 4096

def einvarg : Int := 2

def enomem : Nat := 3

abbrev HeapBlockTableEntry := UInt8

namespace HeapBlockTableEntry

def taken : HeapBlockTableEntry := 0x01

def free : HeapBlockTableEntry := 0x00

def hasNext : HeapBlockTableEntry := 0b10000000

def isFirst : HeapBlockTableEntry := 0b01000000

end HeapBlockTableEntry

/-- `HEAP_TABLE` -/
structure HeapTable where
  entries : Nat → HeapBlockTableEntry
  totalBlocks : Nat

/-- `HEAP` -/
structure TableHeap where
  table : HeapTable
  startAddr : Nat

/-! ## heap_create -/

def heapValidateAlignment (ptr : Nat) : Bool := ptr % hblockSize == 0

def heapValidateTable (heapStart heapEnd : Nat) (table : HeapTable) : Int :=
  let totalMemorySize := sub32 heapEnd heapStart
  let expectedTotalTableBlocks := totalMemorySize / hblockSize
  if table.totalBlocks ≠ expectedTotalTableBlocks then -einvarg else 0

/-- For arguments that are not aligned the answer is 0, too, and the heap is not set up. -/
def heapCreate (heap : TableHeap) (heapStart heapEnd : Nat) (table : HeapTable) :
    TableHeap × Int :=
  if !heapValidateAlignment heapStart || !heapValidateAlignment heapEnd then (heap, 0)
  else
    let res := heapValidateTable heapStart heapEnd table
    if res < 0 then (heap, res)
    else
      let entries := fillSlots table.entries 0 (fun _ => .free) table.totalBlocks
      ({ table := { table with entries }, startAddr := heapStart }, 0)

/-! ## heap_malloc -/

def heapTableHeapAlignToUpper (val : Nat) : Nat :=
  let residual := val % hblockSize
  if residual = 0 then val else u32 (val + (hblockSize - residual))

def heapGetEntryType (entry : HeapBlockTableEntry) : HeapBlockTableEntry := entry &&& 0x0f

namespace TableHeap

def entry (heap : TableHeap) (i : Nat) : HeapBlockTableEntry := heap.table.entries i

def setEntries (heap : TableHeap) (entries : Nat → HeapBlockTableEntry) : TableHeap :=
  { heap with table := { heap.table with entries } }

/-- The search does not pass over entry `i` as a free one. -/
def isTaken (heap : TableHeap) (i : Nat) : Bool :=
  heapGetEntryType (heap.entry i) != HeapBlockTableEntry.free

end TableHeap

/-- The loop of `heap_get_start_block` from `i` on, with so many entries to go. -/
def heapGetStartBlockFrom (heap : TableHeap) (totalBlocks : Nat) : Nat → Nat → Nat → Nat
  | 0, _, _ => u32 (2 ^ 32 - enomem)
  | rounds + 1, i, continuousFreeBlockCounter =>
    if heap.isTaken i then heapGetStartBlockFrom heap totalBlocks rounds (i + 1) 0
    else
      let counter := u32 (continuousFreeBlockCounter + 1)
      if counter = totalBlocks then u32 i
      else heapGetStartBlockFrom heap totalBlocks rounds (i + 1) counter

def heapGetStartBlock (heap : TableHeap) (totalBlocks : Nat) : Nat :=
  heapGetStartBlockFrom heap totalBlocks heap.table.totalBlocks 0 0

def heapBlockToAddress (heap : TableHeap) (block : Nat) : Nat :=
  u32 (heap.startAddr + u32 (block * hblockSize))

def heapMarkBlocksTaken (heap : TableHeap) (startBlock totalBlocks : Nat) : TableHeap :=
  let endBlock := sub32 (startBlock + totalBlocks) 1
  let entry := if totalBlocks > 1 then .taken ||| .hasNext else HeapBlockTableEntry.taken
  let entries := setSlot heap.table.entries startBlock (entry ||| .isFirst)
  let entries := fillSlots entries (startBlock + 1) (fun _ => entry) (endBlock - 1 - startBlock)
  heap.setEntries (setSlot entries endBlock .taken)

def heapMallocBlocks (heap : TableHeap) (totalBlocks : Nat) : TableHeap × Nat :=
  let startBlock := heapGetStartBlock heap totalBlocks
  -- negative as an `int`
  if 2 ^ 31 ≤ startBlock then (heap, 0)
  else
    (heapMarkBlocksTaken heap startBlock totalBlocks, heapBlockToAddress heap startBlock)

def heapMalloc (heap : TableHeap) (size : Nat) : TableHeap × Nat :=
  heapMallocBlocks heap (heapTableHeapAlignToUpper size / hblockSize)

/-! ## heap_free -/

def heapAddressToBlock (heap : TableHeap) (ptr : Nat) : Nat :=
  sub32 ptr heap.startAddr / hblockSize

/-- The `while` returns at the end of its first round. -/
def heapMarkBlocksFree (heap : TableHeap) (startBlock : Nat) : TableHeap :=
  if heap.entry startBlock &&& 0b1 ≠ .free then
    heap.setEntries (setSlot heap.table.entries startBlock .free)
  else heap

def heapFree (heap : TableHeap) (ptr : Nat) : TableHeap :=
  heapMarkBlocksFree heap (heapAddressToBlock heap ptr)

/-! ## What the functions do -/

namespace TableHeap

variable {h : TableHeap} {n s size : Nat} {b rounds c i : Nat}

/-- Blocks have addresses of their own. -/
def Addressable (h : TableHeap) : Prop := h.table.totalBlocks * hblockSize ≤ 2 ^ 32
  deriving Decidable

/-- A run of `n` free entries of the table. -/
def FreeRun (h : TableHeap) (n s : Nat) : Prop := IsRun h.isTaken 0 h.table.totalBlocks n s

theorem Addressable.lt (hadd : h.Addressable) : h.table.totalBlocks < 2 ^ 31 := by
  simp only [Addressable, hblockSize] at hadd
  omega

theorem heapAddressToBlock_heapBlockToAddress (hb : b * hblockSize < 2 ^ 32) :
    heapAddressToBlock h (heapBlockToAddress h b) = b := by
  simp only [heapAddressToBlock, heapBlockToAddress, sub32, u32, hblockSize] at *
  omega

/-- The loop carries that the `c` entries from `s` on are free and that no run starts
before `s`. -/
theorem heapGetStartBlockFrom_spec (htotal : h.table.totalBlocks < 2 ^ 31)
    (hrounds : s + c + rounds = h.table.totalBlocks) (hc : c < n)
    (hfree : ∀ f, s ≤ f → f < s + c → h.isTaken f = false) (hlow : ∀ t, h.FreeRun n t → s ≤ t) :
    (∃ t, IsLeast {t | h.FreeRun n t} t ∧
        heapGetStartBlockFrom h n rounds (s + c) c = t + n - 1) ∨
      (¬ ∃ t, h.FreeRun n t) ∧
        heapGetStartBlockFrom h n rounds (s + c) c = 2 ^ 32 - enomem := by
  induction rounds generalizing s c with
  | zero => exact .inr ⟨IsRun.not_past_end hlow (by omega), rfl⟩
  | succ rounds ih =>
    rw [heapGetStartBlockFrom, u32_of_lt (show c + 1 < 2 ^ 32 by omega),
      u32_of_lt (show s + c < 2 ^ 32 by omega)]
    cases hi : h.isTaken (s + c) with
    | true =>
      -- a taken entry: no run starts before the next one
      rw [if_pos rfl]
      have hskip : ∀ t, h.FreeRun n t → s + (c + 1) ≤ t := IsRun.skip hlow hc hi
      exact ih (s := s + c + 1) (c := 0) (by omega) (by omega) (fun f hf hlt => by omega) hskip
    | false =>
      have hfree' : ∀ f, s ≤ f → f < s + (c + 1) → h.isTaken f = false := by
        intro f hf hlt
        by_cases heq : f = s + c
        · rw [heq, hi]
        · exact hfree f hf (by omega)
      rw [if_neg Bool.false_ne_true]
      by_cases hn : c + 1 = n
      · refine .inl ⟨s, ⟨⟨Nat.zero_le s, by omega, fun f hf hlt => ?_⟩, hlow⟩, ?_⟩
        · exact hfree' f hf (by omega)
        · rw [if_pos hn]
          omega
      · rw [if_neg hn]
        exact ih (s := s) (c := c + 1) (by omega) (by omega) hfree' hlow

/-- The search answers the last entry of the lowest run. -/
theorem heapGetStartBlock_spec (htotal : h.table.totalBlocks < 2 ^ 31) (hn : 0 < n) :
    (∃ s, IsLeast {s | h.FreeRun n s} s ∧ heapGetStartBlock h n = s + n - 1) ∨
      (¬ ∃ s, h.FreeRun n s) ∧ heapGetStartBlock h n = 2 ^ 32 - enomem :=
  heapGetStartBlockFrom_spec (s := 0) (c := 0) htotal (Nat.zero_add _) hn
    (fun f hf hlt => by omega) fun t _ => Nat.zero_le t

/-- No run of no entries is ever found: the counter is increased before it is compared. -/
theorem heapGetStartBlockFrom_zero (hc : c + rounds < 2 ^ 32) :
    heapGetStartBlockFrom h 0 rounds i c = 2 ^ 32 - enomem := by
  induction rounds generalizing i c with
  | zero => rfl
  | succ rounds ih =>
    rw [heapGetStartBlockFrom, u32_of_lt (show c + 1 < 2 ^ 32 by omega),
      if_neg (Nat.succ_ne_zero c), ih (by omega), ih (by omega), ite_self]

/-- The entries that `heap_mark_blocks_taken` writes. -/
theorem entry_heapMarkBlocksTaken (hn : 0 < n) (hend : s + n ≤ 2 ^ 32) (i : Nat) :
    (heapMarkBlocksTaken h s n).entry i =
      if i = s + n - 1 then .taken
      else if i = s then .taken ||| .hasNext ||| .isFirst
      else if s < i ∧ i < s + n then .taken ||| .hasNext
      else h.entry i := by
  have hsub : sub32 (s + n) 1 = s + n - 1 := by
    unfold sub32
    omega
  simp only [heapMarkBlocksTaken, hsub, setEntries, entry, setSlot, fillSlots_apply]
  by_cases hlast : i = s + n - 1
  · rw [if_pos hlast, if_pos hlast]
  · rw [if_neg hlast, if_neg hlast]
    by_cases hfirst : i = s
    · rw [if_neg (by omega), if_pos hfirst, if_pos hfirst, if_pos (by omega)]
    · have hiff : s + 1 ≤ i ∧ i < s + 1 + (s + n - 1 - 1 - s) ↔ s < i ∧ i < s + n := by omega
      simp only [hfirst, hiff, if_false]
      split
      · next h => rw [if_pos (by omega)]
      · rfl

theorem entry_heapMarkBlocksTaken_of_not (hn : 0 < n) (hend : s + n ≤ 2 ^ 32)
    (hi : ¬ (s ≤ i ∧ i < s + n)) : (heapMarkBlocksTaken h s n).entry i = h.entry i := by
  rw [entry_heapMarkBlocksTaken hn hend, if_neg (by omega), if_neg (by omega), if_neg (by omega)]

theorem isTaken_heapMarkBlocksTaken (hn : 0 < n) (hend : s + n ≤ 2 ^ 32) (hi : s ≤ i ∧ i < s + n) :
    (heapMarkBlocksTaken h s n).isTaken i = true := by
  rw [isTaken, entry_heapMarkBlocksTaken hn hend]
  split
  · decide
  · split
    · decide
    · rw [if_pos (by omega)]
      decide

/-- The blocks of an allocation. -/
def blocksOf (size : Nat) : Nat := (size + (hblockSize - 1)) / hblockSize

theorem blocks_eq (hsize : size < 2 ^ 32) :
    heapTableHeapAlignToUpper size / hblockSize =
      if size ≤ 2 ^ 32 - hblockSize then blocksOf size else 0 := by
  unfold heapTableHeapAlignToUpper blocksOf u32
  dsimp only
  split <;> split <;> simp only [hblockSize] at * <;> omega

/-- What `heap_malloc` answers: `NULL`, or the address of the last block of the lowest run,
and as many blocks as that run has are marked from there. -/
inductive MallocSpec (h : TableHeap) (size : Nat) : TableHeap × Nat → Prop
  | null (hnone : 2 ^ 32 - hblockSize < size ∨ ¬ ∃ s, h.FreeRun (blocksOf size) s) :
      MallocSpec h size (h, 0)
  | marked {s : Nat} (hleast : IsLeast {s | h.FreeRun (blocksOf size) s} s)
      (hsize : size ≤ 2 ^ 32 - hblockSize) :
      MallocSpec h size
        (heapMarkBlocksTaken h (s + blocksOf size - 1) (blocksOf size),
          heapBlockToAddress h (s + blocksOf size - 1))

theorem blocksOf_pos (hpos : 0 < size) : 0 < blocksOf size := by
  simp only [blocksOf, hblockSize]
  omega

theorem heapMalloc_spec (hadd : h.Addressable) (hpos : 0 < size) (hsize : size < 2 ^ 32) :
    MallocSpec h size (heapMalloc h size) := by
  have htotal := hadd.lt
  have hn := blocksOf_pos hpos
  rw [heapMalloc, blocks_eq hsize]
  split
  · next hle =>
    rcases heapGetStartBlock_spec htotal hn with ⟨s, hleast, heq⟩ | ⟨hnone, heq⟩
    · have hend : s + blocksOf size ≤ h.table.totalBlocks := IsRun.le_hi hleast.1
      rw [heapMallocBlocks, heq, if_neg (by omega)]
      exact .marked hleast hle
    · rw [heapMallocBlocks, heq, if_pos (by decide)]
      exact .null (.inr hnone)
  · next hgt =>
    have heq : heapGetStartBlock h 0 = 2 ^ 32 - enomem :=
      heapGetStartBlockFrom_zero (by omega)
    rw [heapMallocBlocks, heq, if_pos (by decide)]
    exact .null (.inl (by omega))

/-- `heap_free` clears the first entry of an allocation, and no other. -/
theorem entry_heapMarkBlocksFree (hbit : h.entry b &&& 0b1 ≠ .free) (i : Nat) :
    (heapMarkBlocksFree h b).entry i = if i = b then .free else h.entry i := by
  rw [heapMarkBlocksFree, if_pos hbit]
  rfl

theorem entry_heapFree_heapMalloc (hn : 0 < n) (hend : b + n ≤ 2 ^ 32) (i : Nat) :
    (heapMarkBlocksFree (heapMarkBlocksTaken h b n) b).entry i =
      if i = b then .free else (heapMarkBlocksTaken h b n).entry i := by
  refine entry_heapMarkBlocksFree ?_ i
  rw [entry_heapMarkBlocksTaken hn hend, if_pos rfl]
  split <;> decide

/-! ## heap_free after heap_malloc -/

/-- Every entry is one of those that `heap_malloc` writes, and an entry with `HAS_NEXT` is
followed by another one of its allocation; an entry without `IS_FIRST` that is followed follows
one, too. -/
structure WellFormed (h : TableHeap) : Prop where
  addressable : h.Addressable
  entry : ∀ i < h.table.totalBlocks, h.entry i ∈
    ([.free, .taken, .taken ||| .hasNext, .taken ||| .hasNext ||| .isFirst] :
      List HeapBlockTableEntry)
  next : ∀ i < h.table.totalBlocks, h.entry i &&& .hasNext ≠ 0 →
    i + 1 < h.table.totalBlocks ∧
      h.entry (i + 1) ∈ ([.taken, .taken ||| .hasNext] : List HeapBlockTableEntry)
  prev : ∀ i < h.table.totalBlocks, h.entry i = .taken ||| .hasNext →
    0 < i ∧ h.entry (i - 1) &&& .hasNext ≠ 0

/-- A `heap_malloc` and the `heap_free` of what it returned leave every entry as it was, and
the blocks of the allocation are free. -/
def Undone (h : TableHeap) (size : Nat) : Prop :=
  let ptr := (heapMalloc h size).2
  let h' := heapFree (heapMalloc h size).1 ptr
  let b := heapAddressToBlock h ptr
  (∀ i, h'.entry i = h.entry i) ∧ ∀ i, b ≤ i → i < b + blocksOf size → h'.entry i = .free

/-- In a well-formed table what the search takes for free is 0. -/
theorem WellFormed.entry_eq_free (hwf : h.WellFormed) (hi : i < h.table.totalBlocks)
    (hfree : h.isTaken i = false) : h.entry i = .free := by
  have hmem := hwf.entry i hi
  simp only [List.mem_cons, List.not_mem_nil, or_false] at hmem
  rcases hmem with heq | heq | heq | heq
  · exact heq
  all_goals
    rw [isTaken, heq] at hfree
    exact absurd hfree (by decide)

/-- **A `heap_free` undoes a `heap_malloc` exactly if that took one block.** -/
theorem heapFree_heapMalloc_iff (hwf : h.WellFormed) (hpos : 1 ≤ size) (hsize : size < 2 ^ 32)
    (hsuccess : (heapMalloc h size).2 ≠ 0) : h.Undone size ↔ size ≤ 4096 := by
  have hn := blocksOf_pos hpos
  have htotal := hwf.addressable.lt
  have hspec := heapMalloc_spec hwf.addressable hpos hsize
  unfold Undone
  generalize heapMalloc h size = r at hspec hsuccess
  cases hspec with
  | null => exact absurd rfl hsuccess
  | @marked s hleast hle =>
    have hrun : h.FreeRun (blocksOf size) s := hleast.1
    have hend : s + blocksOf size ≤ h.table.totalBlocks := IsRun.le_hi hrun
    have hadd := hwf.addressable
    have hbound : s + blocksOf size - 1 + blocksOf size ≤ 2 ^ 32 := by omega
    have hblock : heapAddressToBlock h (heapBlockToAddress h (s + blocksOf size - 1)) =
        s + blocksOf size - 1 := by
      refine heapAddressToBlock_heapBlockToAddress ?_
      simp only [Addressable, hblockSize] at hadd ⊢
      omega
    have hone : blocksOf size = 1 ↔ size ≤ 4096 := by
      simp only [blocksOf, hblockSize]
      omega
    show (∀ i, (heapMarkBlocksFree _ (heapAddressToBlock h _)).entry i = _) ∧
      (∀ i, heapAddressToBlock h _ ≤ i → i < heapAddressToBlock h _ + _ →
        (heapMarkBlocksFree _ (heapAddressToBlock h _)).entry i = _) ↔ _
    simp only [hblock, entry_heapFree_heapMalloc hn hbound]
    rw [← hone]
    constructor
    · rintro ⟨-, hfree⟩
      by_contra hmany
      -- the second block stays taken
      have hsecond := hfree (s + blocksOf size - 1 + 1) (by omega) (by omega)
      have htaken := isTaken_heapMarkBlocksTaken (h := h) (i := s + blocksOf size - 1 + 1) hn
        hbound (by omega)
      rw [if_neg (by omega)] at hsecond
      rw [isTaken, hsecond] at htaken
      exact absurd htaken (by decide)
    · intro hone'
      have hzero : h.entry (s + blocksOf size - 1) = .free :=
        hwf.entry_eq_free (by omega) (IsRun.clear hrun _ (by omega) (by omega))
      refine ⟨fun i => ?_, fun i hi hlt => if_pos (by omega)⟩
      split
      · next heq => rw [heq, hzero]
      · next hne => exact entry_heapMarkBlocksTaken_of_not hn hbound (by omega)

/-- A new heap of four blocks. -/
def fourBlocks : TableHeap :=
  (heapCreate ⟨⟨fun _ => 0, 0⟩, 0⟩ 0x1000 0x5000 ⟨fun _ => 0xff, 4⟩).1

theorem fourBlocks_wellFormed : fourBlocks.WellFormed :=
  ⟨by decide, by decide, by decide, by decide⟩

/-- The same with two blocks in use. -/
def twoLiveBlocks : TableHeap := (heapMalloc fourBlocks 8192).1

/-- An allocation next to them. -/
theorem heapFree_heapMalloc_iff_live :
    twoLiveBlocks.entry 1 ≠ .free ∧ twoLiveBlocks.entry 2 ≠ .free ∧
      (heapMalloc twoLiveBlocks 100).2 = 0x1000 ∧ (twoLiveBlocks.Undone 100 ↔ 100 ≤ 4096) :=
  ⟨by decide, by decide, by decide, heapFree_heapMalloc_iff
    ⟨by decide, by decide, by decide, by decide⟩ (by decide) (by decide) (by decide)⟩

/-- Of an allocation of two blocks the second one is lost. -/
theorem heapFree_keeps_second_block :
    fourBlocks.WellFormed ∧ (heapMalloc fourBlocks 8192).2 = 0x2000 ∧
      ¬ fourBlocks.Undone 8192 := by
  refine ⟨fourBlocks_wellFormed, by decide, fun h => ?_⟩
  exact absurd (h.2 2 (by decide) (by decide)) (by decide)

end TableHeap

end UnagiOs
