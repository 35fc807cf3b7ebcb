import UnagiOs.Theory.BitField
import UnagiOs.Theory.Loops
import UnagiOs.Theory.PageWalk

/-!
# The identity map of the 64-bit kernel (paging.cpp)

`SetupIdentityPageTable` fills three arrays of 64-bit entries, one for each of the levels that the
walk visits, and loads CR3. The model is a memory of 64-bit words, keyed by byte address; the
arrays are static objects, so their declarations fix how they lie: on 4 KiB boundaries and apart
from each other (`PageTables`).

The function stores once to each entry, whatever the order of its three loops
(`setupIdentityPageTable_mem`), so each entry holds its own value at the end. The theorem is that
the four-level walk through them is the identity (`setupIdentityPageTable_walk`).
-/

namespace UnagiOs

/-- `kPageSize4K`. -/
def kPageSize4K : Nat := 1024 * 4

/-- `kPageSize2M`. -/
def kPageSize2M : Nat := 1024 * 1024 * 2

/-- `kPageSize1G`. -/
def kPageSize1G : Nat := 1024 * 1024 * 1024

/-- `kPageSize512G`. -/
def kPageSize512G : Nat := kPageSize1G * 512

/-- `PML4E_SIZE`. -/
def pml4eSize : Nat := 4

/-- `PDPTE_SIZE`. -/
def pdpteSize : Nat := 512

/-- `PDE_SIZE`. -/
def pdeSize : Nat := 512

/-- Where the arrays `PML4E`, `PDPTE` and `PDE` lie: distinct objects, aligned as declared, in the
52 bits of a physical address. -/
structure PageTables where
  pml4e : Nat
  pdpte : Nat
  pde : Nat
  pml4e_aligned : kPageSize4K ∣ pml4e
  pdpte_aligned : kPageSize4K ∣ pdpte
  pde_aligned : kPageSize4K ∣ pde
  pml4e_pdpte : pml4e + 8 * pml4eSize ≤ pdpte ∨ pdpte + 8 * (pdpteSize * pml4eSize) ≤ pml4e
  pml4e_pde : pml4e + 8 * pml4eSize ≤ pde ∨ pde + 8 * (pdeSize * (pdpteSize * pml4eSize)) ≤ pml4e
  pdpte_pde : pdpte + 8 * (pdpteSize * pml4eSize) ≤ pde ∨
    pde + 8 * (pdeSize * (pdpteSize * pml4eSize)) ≤ pdpte
  pml4e_top : pml4e + 8 * pml4eSize ≤ 2 ^ 52
  pdpte_top : pdpte + 8 * (pdpteSize * pml4eSize) ≤ 2 ^ 52
  pde_top : pde + 8 * (pdeSize * (pdpteSize * pml4eSize)) ≤ 2 ^ 52

namespace PageTables

variable (T : PageTables)

/-- `&PML4E[i]`. -/
def pml4eAt (i : Nat) : Nat := T.pml4e + 8 * i

/-- `&PDPTE[i][j]`. -/
def pdpteAt (i j : Nat) : Nat := T.pdpte + 8 * (pdpteSize * i + j)

/-- `&PDE[i][j][k]`. -/
def pdeAt (i j k : Nat) : Nat := T.pde + 8 * (pdeSize * (pdpteSize * i + j) + k)

/-- The loop over `i_pd`. -/
def fillPde (i j : Nat) (m : Nat → Nat) : Nat → Nat :=
  (List.range pdeSize).foldl (fun m k =>
    setSlot m (T.pdeAt i j k)
      (i * kPageSize512G + j * kPageSize1G + k * kPageSize2M ||| 0x083)) m

/-- The loop over `i_PDPTE`. -/
def fillPdpte (i : Nat) (m : Nat → Nat) : Nat → Nat :=
  (List.range pdpteSize).foldl (fun m j =>
    T.fillPde i j (setSlot m (T.pdpteAt i j) (T.pdeAt i j 0 ||| 0x003))) m

end PageTables

/-- The memory and the register that the walk starts from. -/
structure PagingState where
  mem : Nat → Nat
  cr3 : Nat

/-- `SetupIdentityPageTable`. -/
def setupIdentityPageTable (T : PageTables) (m : Nat → Nat) : PagingState where
  mem := (List.range pml4eSize).foldl (fun m i =>
    T.fillPdpte i (setSlot m (T.pml4eAt i) (T.pdpteAt i 0 ||| 0x003))) m
  cr3 := T.pml4eAt 0

/-! ## What the entries hold -/

/-- An entry of one of the three arrays. -/
inductive PageEntry where
  | pml4e (i : Nat)
  | pdpte (i j : Nat)
  | pde (i j k : Nat)

namespace PageEntry

/-- The indices are inside the arrays. -/
def InRange : PageEntry → Prop
  | .pml4e i => i < pml4eSize
  | .pdpte i j => i < pml4eSize ∧ j < pdpteSize
  | .pde i j k => i < pml4eSize ∧ j < pdpteSize ∧ k < pdeSize

/-- Where the entry lies. -/
def addr (T : PageTables) : PageEntry → Nat
  | .pml4e i => T.pml4eAt i
  | .pdpte i j => T.pdpteAt i j
  | .pde i j k => T.pdeAt i j k

/-- What is stored in it. -/
def val (T : PageTables) : PageEntry → Nat
  | .pml4e i => T.pdpteAt i 0 ||| 0x003
  | .pdpte i j => T.pdeAt i j 0 ||| 0x003
  | .pde i j k => i * kPageSize512G + j * kPageSize1G + k * kPageSize2M ||| 0x083

/-- The entries that the loop over `i_pd` fills. -/
def row (i j : Nat) : List PageEntry :=
  (List.range pdeSize).map fun k => .pde i j k

/-- The entries that the loop over `i_PDPTE` fills. -/
def block (i : Nat) : List PageEntry :=
  (List.range pdpteSize).flatMap fun j => .pdpte i j :: row i j

/-- All entries, in the order in which they are filled. -/
def all : List PageEntry :=
  (List.range pml4eSize).flatMap fun i => .pml4e i :: block i

theorem mem_all {e : PageEntry} : e ∈ all ↔ e.InRange := by
  cases e <;> simp [all, block, row, InRange]

/-- Distinct entries lie at distinct addresses. -/
theorem addr_inj {T : PageTables} {e e' : PageEntry} (he : e.InRange) (he' : e'.InRange)
    (heq : e.addr T = e'.addr T) : e = e' := by
  have h₁ := T.pml4e_pdpte
  have h₂ := T.pml4e_pde
  have h₃ := T.pdpte_pde
  cases e <;> cases e' <;>
    simp only [InRange, addr, PageTables.pml4eAt, PageTables.pdpteAt, PageTables.pdeAt, pml4eSize,
      pdpteSize, pdeSize, pml4e.injEq, pdpte.injEq, pde.injEq] at * <;> omega

end PageEntry

/-- The store that fills an entry. -/
def PageTables.fill (T : PageTables) (m : Nat → Nat) (e : PageEntry) : Nat → Nat :=
  setSlot m (e.addr T) (e.val T)

theorem PageTables.fillPde_eq (T : PageTables) (i j : Nat) (m : Nat → Nat) :
    T.fillPde i j m = (PageEntry.row i j).foldl T.fill m := by
  rw [PageEntry.row, List.foldl_map]
  rfl

theorem PageTables.fillPdpte_eq (T : PageTables) (i : Nat) (m : Nat → Nat) :
    T.fillPdpte i m = (PageEntry.block i).foldl T.fill m := by
  have hround : (fun m j => T.fillPde i j (setSlot m (T.pdpteAt i j) (T.pdeAt i j 0 ||| 0x003))) =
      fun m j => (PageEntry.pdpte i j :: PageEntry.row i j).foldl T.fill m := by
    funext m j
    rw [List.foldl_cons]
    exact T.fillPde_eq i j _
  rw [PageEntry.block, List.foldl_flatMap, fillPdpte, hround]

/-- The three loops are one pass over all entries. -/
theorem setupIdentityPageTable_mem (T : PageTables) (m : Nat → Nat) :
    (setupIdentityPageTable T m).mem = PageEntry.all.foldl T.fill m := by
  have hround : (fun m i => T.fillPdpte i (setSlot m (T.pml4eAt i) (T.pdpteAt i 0 ||| 0x003))) =
      fun m i => (PageEntry.pml4e i :: PageEntry.block i).foldl T.fill m := by
    funext m i
    rw [List.foldl_cons]
    exact T.fillPdpte_eq i _
  rw [setupIdentityPageTable, hround, PageEntry.all, List.foldl_flatMap]

/-- Each entry holds its value. -/
theorem setupIdentityPageTable_entry (T : PageTables) (m : Nat → Nat) {e : PageEntry}
    (he : e.InRange) : (setupIdentityPageTable T m).mem (e.addr T) = e.val T := by
  rw [setupIdentityPageTable_mem]
  refine foldl_setSlot_mem (PageEntry.mem_all.mpr he) (fun e' he' heq => ?_) m
  rw [PageEntry.addr_inj (PageEntry.mem_all.mp he') he heq]

/-! ## The walk -/

/-- The mask of the physical address in CR3 and in an entry that names a table, bits 51 to 12. -/
def tableMask : Nat := bitMask 12 40

/-- The mask of the physical address in an entry that maps a 2 MiB page, bits 51 to 21. -/
def pageMask2M : Nat := bitMask 21 31

/-- Bits 47 to 39 index the PML4 table. -/
def pml4Level : PageLevel := ⟨39, 9, 8, tableMask⟩

/-- Bits 38 to 30 index a page directory pointer table. -/
def pdptLevel : PageLevel := ⟨30, 9, 8, tableMask⟩

/-- Bits 29 to 21 index a page directory, whose entries map 2 MiB pages. -/
def pdLevel : PageLevel := ⟨21, 9, 8, pageMask2M⟩

/-- The levels of the walk. -/
def fourLevel : List PageLevel := [pml4Level, pdptLevel, pdLevel]

section Walk

theorem tableMask_or {a f : Nat} (ha : kPageSize4K ∣ a) (hlt : a < 2 ^ 52) (hf : f < kPageSize4K) :
    (a ||| f) &&& tableMask = a :=
  and_mask_or ha hlt hf

theorem pageMask2M_or {a f : Nat} (ha : kPageSize2M ∣ a) (hlt : a < 2 ^ 52) (hf : f < kPageSize2M) :
    (a ||| f) &&& pageMask2M = a :=
  and_mask_or ha hlt hf

variable (T : PageTables) (m : Nat → Nat) {a i j k : Nat}

theorem PageTables.cr3_eq :
    (setupIdentityPageTable T m).cr3 &&& tableMask = T.pml4e := by
  have htop := T.pml4e_top
  have hmask := tableMask_or (f := 0) T.pml4e_aligned
    (by simp only [pml4eSize] at htop; omega) (by decide)
  rwa [Nat.or_zero] at hmask

theorem PageTables.pdpteAt_aligned (i : Nat) : kPageSize4K ∣ T.pdpteAt i 0 := by
  have hal := T.pdpte_aligned
  simp only [pdpteAt, pdpteSize, kPageSize4K] at *
  omega

theorem PageTables.pdeAt_aligned (i j : Nat) : kPageSize4K ∣ T.pdeAt i j 0 := by
  have hal := T.pde_aligned
  simp only [pdeAt, pdpteSize, pdeSize, kPageSize4K] at *
  omega

theorem page_aligned (i j k : Nat) :
    kPageSize2M ∣ i * kPageSize512G + j * kPageSize1G + k * kPageSize2M := by
  have h512G : kPageSize2M ∣ kPageSize512G := by decide
  have h1G : kPageSize2M ∣ kPageSize1G := by decide
  exact Nat.dvd_add (Nat.dvd_add (h512G.mul_left i) (h1G.mul_left j)) (Nat.dvd_mul_left _ k)

theorem page_eq (i j k : Nat) : i * kPageSize512G + j * kPageSize1G + k * kPageSize2M =
    i * 2 ^ 39 + j * 2 ^ 30 + k * 2 ^ 21 := by
  rw [show kPageSize512G = 2 ^ 39 by decide, show kPageSize1G = 2 ^ 30 by decide,
    show kPageSize2M = 2 ^ 21 by decide]

section Entry

variable (hi : i < pml4eSize)
include hi

/-- What the walk finds in `PML4E`. -/
theorem PageTables.pml4e_entry :
    (setupIdentityPageTable T m).mem (T.pml4e + 8 * i) = T.pdpteAt i 0 ||| 0x003 :=
  setupIdentityPageTable_entry T m (e := .pml4e i) hi

theorem PageTables.pml4e_next :
    (setupIdentityPageTable T m).mem (T.pml4e + 8 * i) &&& tableMask = T.pdpteAt i 0 := by
  have htop := T.pdpte_top
  rw [T.pml4e_entry m hi]
  refine tableMask_or (T.pdpteAt_aligned i) ?_ (by decide)
  simp only [pdpteAt, pdpteSize, pml4eSize] at *
  omega

/-- What the walk finds in a row of `PDPTE`. -/
theorem PageTables.pdpte_entry (hj : j < pdpteSize) :
    (setupIdentityPageTable T m).mem (T.pdpteAt i 0 + 8 * j) = T.pdeAt i j 0 ||| 0x003 := by
  have haddr : T.pdpteAt i 0 + 8 * j = T.pdpteAt i j := by
    simp only [pdpteAt]
    omega
  rw [haddr]
  exact setupIdentityPageTable_entry T m (e := .pdpte i j) ⟨hi, hj⟩

theorem PageTables.pdpte_next (hj : j < pdpteSize) :
    (setupIdentityPageTable T m).mem (T.pdpteAt i 0 + 8 * j) &&& tableMask = T.pdeAt i j 0 := by
  have htop := T.pde_top
  rw [T.pdpte_entry m hi hj]
  refine tableMask_or (T.pdeAt_aligned i j) ?_ (by decide)
  simp only [pdeAt, pdeSize, pdpteSize, pml4eSize] at *
  omega

/-- What the walk finds in a row of `PDE`. -/
theorem PageTables.pde_entry (hj : j < pdpteSize) (hk : k < pdeSize) :
    (setupIdentityPageTable T m).mem (T.pdeAt i j 0 + 8 * k) =
      i * kPageSize512G + j * kPageSize1G + k * kPageSize2M ||| 0x083 := by
  have haddr : T.pdeAt i j 0 + 8 * k = T.pdeAt i j k := by
    simp only [pdeAt]
    omega
  rw [haddr]
  exact setupIdentityPageTable_entry T m (e := .pde i j k) ⟨hi, hj, hk⟩

theorem PageTables.pde_page (hj : j < pdpteSize) (hk : k < pdeSize) :
    (setupIdentityPageTable T m).mem (T.pdeAt i j 0 + 8 * k) &&& pageMask2M =
      i * kPageSize512G + j * kPageSize1G + k * kPageSize2M := by
  rw [T.pde_entry m hi hj hk]
  refine pageMask2M_or (page_aligned i j k) ?_ (by decide)
  rw [page_eq]
  simp only [pdeSize, pdpteSize, pml4eSize] at *
  omega

/-- The tables below an entry of `PML4E` map its 512 GiB to themselves. -/
theorem PageTables.identityTree :
    IdentityTree (setupIdentityPageTable T m).mem 39 [pdptLevel, pdLevel] (T.pdpteAt i 0) i := by
  intro j hj k hk
  show (setupIdentityPageTable T m).mem
      (((setupIdentityPageTable T m).mem (T.pdpteAt i 0 + 8 * j) &&& tableMask) + 8 * k) &&&
        pageMask2M = ((i * 2 ^ 9 + j) * 2 ^ 9 + k) * 2 ^ 21
  rw [T.pdpte_next m hi hj, T.pde_page m hi hj hk, page_eq]
  omega

end Entry

/-- The three entries that a walk reads. -/
theorem PageTables.walkEntries_eq (ha : pml4Level.index a < pml4eSize) :
    walkEntries (setupIdentityPageTable T m).mem fourLevel T.pml4e a =
      [T.pdpteAt (pml4Level.index a) 0 ||| 0x003,
        T.pdeAt (pml4Level.index a) (pdptLevel.index a) 0 ||| 0x003,
        pml4Level.index a * kPageSize512G + pdptLevel.index a * kPageSize1G +
          pdLevel.index a * kPageSize2M ||| 0x083] := by
  have hj : pdptLevel.index a < pdpteSize := Nat.mod_lt _ (by decide)
  have hk : pdLevel.index a < pdeSize := Nat.mod_lt _ (by decide)
  have h₁ := T.pml4e_next m ha
  have h₂ := T.pdpte_next m ha hj
  rw [T.pml4e_entry m ha] at h₁
  rw [T.pdpte_entry m ha hj] at h₂
  -- each entry names the table in which the next one is read
  have hpdpt : pdptLevel.entry (setupIdentityPageTable T m).mem
      (T.pdpteAt (pml4Level.index a) 0) a = _ := T.pdpte_entry m ha hj
  have hpd : pdLevel.entry (setupIdentityPageTable T m).mem
      (T.pdeAt (pml4Level.index a) (pdptLevel.index a) 0) a = _ :=
    T.pde_entry m ha hj hk
  have hpml4 : pml4Level.entry (setupIdentityPageTable T m).mem T.pml4e a = _ := T.pml4e_entry m ha
  simp only [fourLevel, walkEntries, hpml4]
  rw [show pml4Level.mask = tableMask from rfl, h₁, hpdpt,
    show pdptLevel.mask = tableMask from rfl, h₂, hpd]

end Walk

/-- `P`, bit 0 of an entry. -/
def present (e : Nat) : Bool := e.testBit 0

/-- `R/W`, bit 1 of an entry. -/
def writable (e : Nat) : Bool := e.testBit 1

/-- `PS`, bit 7 of an entry: it maps a page, and the walk ends. -/
def pageSize (e : Nat) : Bool := e.testBit 7

/-- The flags of an entry that names an aligned table or page. -/
theorem flags_or {a f : Nat} (ha : kPageSize4K ∣ a) :
    present (a ||| f) = present f ∧ writable (a ||| f) = writable f ∧
      pageSize (a ||| f) = pageSize f := by
  have ha' : 2 ^ 12 ∣ a := ha
  exact ⟨testBit_or_flags ha' (by decide), testBit_or_flags ha' (by decide),
    testBit_or_flags ha' (by decide)⟩

/-- **The four-level walk is the identity** on all addresses that the tables cover. Every entry on
the way is present and writable, and the last one, which maps a 2 MiB page, is the only one with
the page-size bit. -/
theorem setupIdentityPageTable_walk (T : PageTables) (m : Nat → Nat) {a : Nat}
    (ha : a < 4 * kPageSize512G) :
    walk (setupIdentityPageTable T m).mem 48 fourLevel
        ((setupIdentityPageTable T m).cr3 &&& tableMask) a = a ∧
      (∀ e ∈ walkEntries (setupIdentityPageTable T m).mem fourLevel
        ((setupIdentityPageTable T m).cr3 &&& tableMask) a, present e ∧ writable e) ∧
      (walkEntries (setupIdentityPageTable T m).mem fourLevel
        ((setupIdentityPageTable T m).cr3 &&& tableMask) a).map pageSize =
          [false, false, true] := by
  have hdiv : a / 2 ^ 39 < pml4eSize := by
    have h512G : kPageSize512G = 2 ^ 39 := by decide
    rw [h512G] at ha
    exact Nat.div_lt_of_lt_mul (by rw [Nat.mul_comm]; exact ha)
  have hindex : pml4Level.index a = a / 2 ^ 39 := by
    rw [PageLevel.index, Nat.shiftRight_eq_div_pow]
    exact Nat.mod_eq_of_lt (Nat.lt_trans hdiv (by decide))
  have hi : pml4Level.index a < pml4eSize := hindex ▸ hdiv
  rw [T.cr3_eq m, T.walkEntries_eq m hi]
  have hpdpt := flags_or (f := 0x003) (T.pdpteAt_aligned (pml4Level.index a))
  have hpd := flags_or (f := 0x003) (T.pdeAt_aligned (pml4Level.index a) (pdptLevel.index a))
  have hpage := flags_or (f := 0x083) (Nat.dvd_trans (show kPageSize4K ∣ kPageSize2M by decide)
    (page_aligned (pml4Level.index a) (pdptLevel.index a) (pdLevel.index a)))
  refine ⟨?_, ?_, ?_⟩
  · have hnext : pml4Level.entry (setupIdentityPageTable T m).mem T.pml4e a &&& pml4Level.mask =
        T.pdpteAt (pml4Level.index a) 0 := T.pml4e_next m hi
    rw [fourLevel, walk, hnext]
    exact (T.identityTree m hi).walk_eq ⟨rfl, rfl, trivial⟩ hindex.symm
  · intro e he
    simp only [List.mem_cons, List.not_mem_nil, or_false] at he
    rcases he with rfl | rfl | rfl
    · rw [hpdpt.1, hpdpt.2.1]
      decide
    · rw [hpd.1, hpd.2.1]
      decide
    · rw [hpage.1, hpage.2.1]
      decide
  · simp only [List.map_cons, List.map_nil, hpdpt.2.2, hpd.2.2, hpage.2.2]
    decide

/-- The three arrays one behind the other from 1 MiB on. -/
def packedTables : PageTables where
  pml4e := 0x100000
  pdpte := 0x101000
  pde := 0x105000
  pml4e_aligned := by decide
  pdpte_aligned := by decide
  pde_aligned := by decide
  pml4e_pdpte := by decide
  pml4e_pde := by decide
  pdpte_pde := by decide
  pml4e_top := by decide
  pdpte_top := by decide
  pde_top := by decide

/-- An address in the last gigabyte that the tables cover. -/
theorem setupIdentityPageTable_walk_last_page :
    walk (setupIdentityPageTable packedTables fun _ => 0).mem 48 fourLevel
      ((setupIdentityPageTable packedTables fun _ => 0).cr3 &&& tableMask) 0x1fffffff123 =
        0x1fffffff123 :=
  (setupIdentityPageTable_walk packedTables (fun _ => 0) (by decide)).1

end UnagiOs
