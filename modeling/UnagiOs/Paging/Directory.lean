import Mathlib.Tactic.IntervalCases
import UnagiOs.Memory.HeapdlFit
import UnagiOs.Theory.BitField
import UnagiOs.Theory.PageWalk

/-!
# Page directories of the 32-bit kernel (memory/paging/paging.c)

`pd_init` allocates a page directory and 1024 page tables with `kzalloc` and fills them so that
every page is mapped to itself. An entry is a packed struct of bit-fields in one 32-bit word:

| bits  | `PAGE_DIRECTORY_ENTRY_4KB` | `PAGE_TABLE_ENTRY_4KB` |
|-------|----------------------------|------------------------|
| 0     | `P`                        | `P`                    |
| 1     | `R_W`                      | `R_W`                  |
| 2     | `U_S`                      | `U_S`                  |
| 3     | `A`                        | `PWT`                  |
| 4     | `PWT`                      | `PCD`                  |
| 5     | `PCD`                      | `A`                    |
| 6     | `AVL1`                     | `D`                    |
| 7     | `PS`                       | `PAT`                  |
| 8-11  | `AVL0`                     | `G`, `AVL`             |
| 12-31 | `higher_address`           | `higher_address`       |

Bits 3 to 5 of the two differ; the hardware has the order of the table entry in both.

Two results about the words, both exact: `dirWord_flags_iff`, which flags reach the low bits of a
directory word unchanged, and `identityTree_iff`, where the tables have to lie for the walk to be
the identity.
-/

namespace UnagiOs

/-! ## The model -/

/-- `PAGE_DIRECTORY_TOTAL_ENTRIES`. -/
def pageDirectoryTotalEntries : Nat := 1024

/-- `PAGE_TABLE_TOTAL_ENTRIES`. -/
def pageTableTotalEntries : Nat := 1024

/-- `PAGE_OS_PAGE_SIZE`. -/
def pageOsPageSize : Nat := 4096

/-- `sizeof(PAGE_DIRECTORY_4KB)`: one pointer, padded to its alignment. -/
def sizeofPageDirectory : Nat := 4096

/-! The first bits of the fields of the two structs, `PAGE_TABLE_ENTRY_4KB` with those that
`pd_init` assigns. -/

namespace DirectoryEntry

def P : Nat := 0
def R_W : Nat := 1
def U_S : Nat := 2
def A : Nat := 3
def PWT : Nat := 4
def PCD : Nat := 5
def AVL1 : Nat := 6
def PS : Nat := 7
def AVL0 : Nat := 8
def higherAddress : Nat := 12

end DirectoryEntry

namespace TableEntry

def P : Nat := 0
def R_W : Nat := 1
def U_S : Nat := 2
def higherAddress : Nat := 12

end TableEntry

/-- `pd_entry_set_flags`, on the word of the entry. -/
def pdEntrySetFlags (e flags : Nat) : Nat :=
  let e := setBits DirectoryEntry.AVL0 4 (flags >>> 8 &&& 0b1111) e
  let e := setBits DirectoryEntry.PS 1 (flags >>> 7 &&& 0x1) e
  let e := setBits DirectoryEntry.AVL1 1 (flags >>> 6 &&& 0x1) e
  let e := setBits DirectoryEntry.A 1 (flags >>> 5 &&& 0x1) e
  let e := setBits DirectoryEntry.PCD 1 (flags >>> 4 &&& 0x1) e
  let e := setBits DirectoryEntry.PWT 1 (flags >>> 3 &&& 0x1) e
  let e := setBits DirectoryEntry.U_S 1 (flags >>> 2 &&& 0x1) e
  let e := setBits DirectoryEntry.R_W 1 (flags >>> 1 &&& 0x1) e
  setBits DirectoryEntry.P 1 (flags &&& 0x1) e

/-- The assignments to `pd_entries[i]`. -/
def setDirectoryEntry (table flags e : Nat) : Nat :=
  pdEntrySetFlags (setBits DirectoryEntry.higherAddress 20 (table >>> 12 &&& 0xfffff) e) flags

/-- The assignments to `table[j]`. -/
def setTableEntry (realMemAddress e : Nat) : Nat :=
  let e := setBits TableEntry.higherAddress 20 (realMemAddress >>> 12 &&& 0xfffff) e
  let e := setBits TableEntry.U_S 1 1 e
  let e := setBits TableEntry.R_W 1 1 e
  setBits TableEntry.P 1 1 e

/-- One round of the inner loop, on the heap and `address_offset`. -/
def setPage (table : Nat) (s : Heapdl × Nat) (j : Nat) : Heapdl × Nat :=
  ({ s.1 with mem := s.1.mem.write (table + 4 * j) (setTableEntry s.2 (s.1.mem (table + 4 * j))) },
    (s.2 + pageOsPageSize) % 2 ^ 64)

/-- The inner loop. -/
def fillTable (table : Nat) (s : Heapdl × Nat) : Heapdl × Nat :=
  (List.range pageTableTotalEntries).foldl (setPage table) s

/-- One round of the outer loop. -/
def pdInitRound (entries flags : Nat) (s : Heapdl × Nat) (i : Nat) : Option (Heapdl × Nat) :=
  (kzalloc s.1 (4 * pageTableTotalEntries)).map fun r =>
    let table := r.2
    let e := setDirectoryEntry table flags (r.1.mem (entries + 4 * i))
    fillTable table ({ r.1 with mem := r.1.mem.write (entries + 4 * i) e }, s.2)

/-- `pd_init`. The pointers that `kzalloc` returns are used without a look. -/
def pdInit (h : Heapdl) (flags : Nat) : Option (Heapdl × Nat) :=
  (kzalloc h sizeofPageDirectory).bind fun r =>
    let pd := r.2
    (kzalloc r.1 (4 * pageDirectoryTotalEntries)).bind fun r =>
      let entries := r.2
      let h := { r.1 with mem := r.1.mem.write pd entries }
      ((List.range pageDirectoryTotalEntries).foldlM (pdInitRound entries flags) (h, 0)).map
        fun s => (s.1, pd)

/-! ## The words -/

/-- The mask `0xfffff000`. -/
def frameMask : Nat := bitMask 12 20

/-- A directory word, on a cleared entry. -/
def dirWord (table flags : Nat) : Nat := setDirectoryEntry table flags 0

/-- The word of page `n`, on a cleared entry. -/
def tableWord (n : Nat) : Nat := setTableEntry (pageOsPageSize * n) 0

section Words

variable {table flags n x i : Nat}

theorem and_frameMask (hx : x < 2 ^ 32) : x &&& frameMask = x / 4096 * 4096 := by
  have hlt : x / 2 ^ 12 < 2 ^ 20 := Nat.div_lt_of_lt_mul hx
  rw [frameMask, and_bitMask, Nat.mod_eq_of_lt hlt]
  rfl

/-- Each bit of a directory word. -/
theorem testBit_dirWord : (dirWord table flags).testBit i =
    if i < 12 then flags.testBit (if i = 3 then 5 else if i = 4 then 3 else if i = 5 then 4 else i)
    else if i < 32 then table.testBit i else false := by
  simp only [dirWord, setDirectoryEntry, pdEntrySetFlags, testBit_setBits, DirectoryEntry.P,
    DirectoryEntry.R_W, DirectoryEntry.U_S, DirectoryEntry.A, DirectoryEntry.PWT,
    DirectoryEntry.PCD, DirectoryEntry.AVL1, DirectoryEntry.PS, DirectoryEntry.AVL0,
    DirectoryEntry.higherAddress]
  have h4 : ∀ j < 4, Nat.testBit 0b1111 j = true := by decide
  have h20 : ∀ j < 20, Nat.testBit 0xfffff j = true := by decide
  by_cases hlow : i < 12
  · interval_cases i <;> simp [Nat.testBit_and, Nat.testBit_shiftRight, h4]
  · rw [if_neg (by omega), if_neg (by omega), if_neg (by omega), if_neg (by omega),
      if_neg (by omega), if_neg (by omega), if_neg (by omega), if_neg (by omega),
      if_neg (by omega), if_neg hlow]
    by_cases hhigh : i < 32
    · rw [if_pos (by omega), if_pos hhigh, Nat.testBit_and, Nat.testBit_shiftRight,
        h20 (i - 12) (by omega), Bool.and_true]
      congr 1
      omega
    · rw [if_neg (by omega), if_neg hhigh, Nat.zero_testBit]

/-- The flags reach the low bits of a directory word unchanged exactly if the three bits that
change places are equal. -/
theorem dirWord_flags_iff : dirWord table flags % 2 ^ 12 = flags % 2 ^ 12 ↔
    flags.testBit 3 = flags.testBit 4 ∧ flags.testBit 4 = flags.testBit 5 := by
  have hbit : ∀ j < 12, (dirWord table flags % 2 ^ 12).testBit j =
      flags.testBit (if j = 3 then 5 else if j = 4 then 3 else if j = 5 then 4 else j) := by
    intro j hj
    rw [Nat.testBit_mod_two_pow, decide_eq_true hj, Bool.true_and, testBit_dirWord, if_pos hj]
  have hflag : ∀ j < 12, (flags % 2 ^ 12).testBit j = flags.testBit j := by
    intro j hj
    rw [Nat.testBit_mod_two_pow, decide_eq_true hj, Bool.true_and]
  constructor
  · intro heq
    have h4 := hbit 4 (by decide)
    have h5 := hbit 5 (by decide)
    rw [heq, hflag _ (by decide)] at h4 h5
    exact ⟨h4.symm, h5.symm⟩
  · rintro ⟨h34, h45⟩
    refine Nat.eq_of_testBit_eq fun j => ?_
    by_cases hj : j < 12
    · rw [hbit j hj, hflag j hj]
      interval_cases j <;> simp [h34, h45]
    · rw [Nat.testBit_mod_two_pow, Nat.testBit_mod_two_pow, decide_eq_false hj, Bool.false_and,
        Bool.false_and]

/-- A directory word names the page that the table starts in. -/
theorem dirWord_frame (ht : table < 2 ^ 32) :
    dirWord table flags &&& frameMask = table / 4096 * 4096 := by
  rw [← and_frameMask ht]
  refine Nat.eq_of_testBit_eq fun j => ?_
  rw [Nat.testBit_and, Nat.testBit_and, frameMask, bitMask, Nat.testBit_shiftLeft,
    Nat.testBit_two_pow_sub_one, testBit_dirWord]
  by_cases hlow : 12 ≤ j
  · by_cases hhigh : j < 32
    · rw [if_neg (by omega), if_pos hhigh]
    · simp [show ¬ (j - 12 < 20) by omega]
  · simp [hlow]

theorem tableWord_eq (hn : n < 2 ^ 20) : tableWord n = 4096 * n + 7 := by
  have hcut : (pageOsPageSize * n) >>> 12 &&& 0xfffff = n := by
    rw [Nat.shiftRight_eq_div_pow, show 0xfffff = 2 ^ 20 - 1 by decide,
      Nat.and_two_pow_sub_one_eq_mod, pageOsPageSize]
    omega
  simp only [tableWord, setTableEntry, hcut, setBits, TableEntry.P, TableEntry.R_W, TableEntry.U_S,
    TableEntry.higherAddress]
  omega

theorem tableWord_frame (hn : n < 2 ^ 20) : tableWord n &&& frameMask = 4096 * n := by
  rw [tableWord_eq hn, and_frameMask (by omega)]
  omega

/-- The present, write and user bits of a table word. -/
theorem tableWord_flags (hn : n < 2 ^ 20) : ∀ j < 3, (tableWord n).testBit j = true := by
  intro j hj
  rw [tableWord_eq hn, show 4096 * n = 2 ^ 12 * n from rfl,
    Nat.testBit_two_pow_mul_add n (by decide), if_pos (by omega)]
  interval_cases j <;> decide

end Words

/-! ## The walk -/

/-- Bits 31 to 22 index the directory. -/
def directoryLevel : PageLevel := ⟨22, 10, 4, frameMask⟩

/-- Bits 21 to 12 index a table. -/
def tableLevel : PageLevel := ⟨12, 10, 4, frameMask⟩

/-- The levels of the walk. -/
def twoLevel : List PageLevel := [directoryLevel, tableLevel]

/-- The directory at `entries` names the tables, and their pages are numbered through. -/
structure Numbered (m : Mem) (entries flags : Nat) (table : Nat → Nat) : Prop where
  dir : ∀ i < pageDirectoryTotalEntries, m (entries + 4 * i) = dirWord (table i) flags
  page : ∀ i < pageDirectoryTotalEntries, ∀ j < pageTableTotalEntries,
    m (table i + 4 * j) = tableWord (1024 * i + j)

/-- Words at a 32-bit address. -/
structure WordAligned (a : Nat) : Prop where
  lt : a < 2 ^ 32
  dvd : 4 ∣ a

section Walk

variable {m : Mem} {entries flags i j : Nat} {table : Nat → Nat}

/-- A table that does not start on a page is read from the start of the page on: the entries
move up, by as many as fit in between. -/
theorem WordAligned.shifted {a : Nat} (ha : WordAligned a) (hi : a % 4096 / 4 ≤ i) :
    a / 4096 * 4096 + 4 * i = a + 4 * (i - a % 4096 / 4) := by
  have hdvd := ha.dvd
  omega

/-- The page that a walk ends in, as far as the indices stay inside the directory and the table. -/
theorem Numbered.leaf (hm : Numbered m entries flags table) (hentries : WordAligned entries)
    (htable : ∀ i < pageDirectoryTotalEntries, WordAligned (table i)) {i₀ : Nat}
    (hi : entries % 4096 / 4 ≤ i) (hi' : i < 1024) (hi₀ : i - entries % 4096 / 4 = i₀)
    (hj : table i₀ % 4096 / 4 ≤ j) (hj' : j < 1024) :
    m ((m ((entries &&& frameMask) + 4 * i) &&& frameMask) + 4 * j) &&& frameMask =
      4096 * (1024 * i₀ + (j - table i₀ % 4096 / 4)) := by
  have hlt : i₀ < pageDirectoryTotalEntries := by
    simp only [pageDirectoryTotalEntries]
    omega
  have hj₀ : j - table i₀ % 4096 / 4 < pageTableTotalEntries := by
    simp only [pageTableTotalEntries]
    omega
  rw [and_frameMask hentries.lt, hentries.shifted hi, hi₀, hm.dir i₀ hlt,
    dirWord_frame (htable i₀ hlt).lt, (htable i₀ hlt).shifted hj, hm.page i₀ hlt _ hj₀,
    tableWord_frame]
  simp only [pageTableTotalEntries] at hj₀
  omega

/-- **The walk is the identity exactly if the directory and all tables start on a page.** The last
page tells: behind a directory that does not, it is found through an earlier entry. -/
theorem Numbered.identityTree_iff (hm : Numbered m entries flags table)
    (hentries : WordAligned entries)
    (htable : ∀ i < pageDirectoryTotalEntries, WordAligned (table i)) :
    IdentityTree m 32 twoLevel (entries &&& frameMask) 0 ↔
      4096 ∣ entries ∧ ∀ i < pageDirectoryTotalEntries, 4096 ∣ table i := by
  constructor
  · intro htree
    have hread : ∀ i < 1024, entries % 4096 / 4 ≤ i →
        4096 * (1024 * (i - entries % 4096 / 4) +
          (1023 - table (i - entries % 4096 / 4) % 4096 / 4)) =
            ((0 * 2 ^ 10 + i) * 2 ^ 10 + 1023) * 2 ^ 12 := by
      intro i hi' hi
      rw [← hm.leaf hentries htable hi hi' rfl (by omega) (show 1023 < 1024 by decide)]
      exact htree i hi' 1023 (by decide)
    have hdir : entries % 4096 = 0 := by
      have hlast := hread 1023 (by decide) (by omega)
      have hdvd := hentries.dvd
      omega
    refine ⟨Nat.dvd_of_mod_eq_zero hdir, fun i hi => ?_⟩
    have hlast := hread i hi (by omega)
    have hdvd := (htable i hi).dvd
    rw [hdir, Nat.zero_div, Nat.sub_zero] at hlast
    omega
  · rintro ⟨hdir, htab⟩ i hi j hj
    have htab' := htab i hi
    have hleaf := hm.leaf hentries htable (i := i) (j := j) (by omega) hi
      (show i - entries % 4096 / 4 = i by omega) (by omega) hj
    refine hleaf.trans ?_
    show _ = ((0 * 2 ^ 10 + i) * 2 ^ 10 + j) * 2 ^ 12
    omega

end Walk

end UnagiOs
