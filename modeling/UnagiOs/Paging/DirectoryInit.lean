import UnagiOs.Memory.HeapdlOwn
import UnagiOs.Paging.Directory

/-!
# What `pd_init` leaves behind

`pd_init` takes 1026 payloads from the heap: the directory struct, the directory and 1024 tables.
On a heap with enough memory its loops fill all of them as meant (`Filled`, kept by each round of
the outer loop). What that map is worth depends on where the allocator puts the payloads:
`pdInit_identity_iff` says exactly when the two-level walk is the identity and the directory words
carry the flags.
-/

namespace UnagiOs

open Links List

/-! ## The inner loop -/

section Table

variable {h : Heapdl} {table off n : Nat}

/-- The first `n` rounds of the inner loop. -/
theorem foldl_setPage (h : Heapdl) (table : Nat) {off n : Nat} (hoff : off + 4096 * n < 2 ^ 64) :
    ∃ m, (List.range n).foldl (setPage table) (h, off) = ({ h with mem := m }, off + 4096 * n) ∧
      (∀ j < n, m (table + 4 * j) = setTableEntry (off + 4096 * j) (h.mem (table + 4 * j))) ∧
      ∀ w, (∀ j < n, w ≠ table + 4 * j) → m w = h.mem w := by
  induction n with
  | zero => exact ⟨h.mem, rfl, fun j hj => absurd hj (Nat.not_lt_zero j), fun w _ => rfl⟩
  | succ n ih =>
    obtain ⟨m, hfold, hset, hkeep⟩ := ih (by omega)
    have hown := hkeep (table + 4 * n) fun j hj => by omega
    refine ⟨m.write (table + 4 * n) (setTableEntry (off + 4096 * n) (h.mem (table + 4 * n))),
      ?_, fun j hj => ?_, fun w hw => ?_⟩
    · rw [range_succ, foldl_append, hfold, foldl_cons, foldl_nil, setPage]
      simp only [hown, pageOsPageSize, Prod.mk.injEq, true_and]
      omega
    · by_cases hjn : j = n
      · rw [hjn, Mem.write_self]
      · rw [Mem.write_other _ _ (by omega)]
        exact hset j (by omega)
    · rw [Mem.write_other _ _ (hw n (by omega))]
      exact hkeep w fun j hj => hw j (by omega)

end Table

/-! ## The outer loop -/

/-- The bytes of a table, and of the directory. -/
def tableBytes : Nat := 4096

/-- The directory is filled up to the given tables, and the tables are filled. -/
structure Filled (h : Heapdl) (A : Arena) (pd entries flags : Nat) (tables : List Nat) : Prop where
  repr : HeapRepr h A
  aligned : ∀ a ∈ A.addrs, osMemoryAlign ∣ a
  pd_owns : A.Owns pd tableBytes
  dir_owns : A.Owns entries tableBytes
  pd_ne : pd ≠ entries
  pd_word : h.mem pd = entries
  owns : ∀ t ∈ tables, A.Owns t tableBytes ∧ t ≠ entries
  dir : ∀ i t, tables[i]? = some t → h.mem (entries + 4 * i) = dirWord t flags
  rest : ∀ i < pageDirectoryTotalEntries, tables.length ≤ i → h.mem (entries + 4 * i) = 0
  page : ∀ i t, tables[i]? = some t → ∀ j < pageTableTotalEntries,
    h.mem (t + 4 * j) = tableWord (1024 * i + j)

section Rounds

variable {h h₁ g g' : Heapdl} {A A₁ : Arena} {pd entries flags t : Nat} {tables : List Nat}

/-- A payload that is held lies apart from a new table. -/
theorem Zalloc.apart {q w : Nat} (hz : Zalloc h h₁ A A₁ t tableBytes) (ho : A.Owns q tableBytes)
    (hlo : q ≤ w) (hhi : w < q + tableBytes) : w < t ∨ t + tableBytes ≤ w := by
  obtain ⟨ho₁, hne⟩ := hz.keeps ho
  have hdis := ho₁.disjoint hz.owns hz.repr.wf hne
  omega

/-- The memory after a round: the entry and the table are new, and what else is held is not. -/
theorem Filled.round_words (hf : Filled h A pd entries flags tables)
    (hlen : tables.length < pageDirectoryTotalEntries) (hz : Zalloc h h₁ A A₁ t tableBytes) :
    ∃ m, fillTable t (h₁.onMem fun m => m.write (entries + 4 * tables.length)
          (setDirectoryEntry t flags (h₁.mem (entries + 4 * tables.length))),
        4096 * 1024 * tables.length) =
          ({ h₁ with mem := m }, 4096 * 1024 * (tables.length + 1)) ∧
      HeapRepr { h₁ with mem := m } A₁ ∧
      m (entries + 4 * tables.length) = dirWord t flags ∧
      (∀ j < pageTableTotalEntries, m (t + 4 * j) = tableWord (1024 * tables.length + j)) ∧
      ∀ {q w : Nat}, A.Owns q tableBytes → q ≤ w → w < q + tableBytes →
        w ≠ entries + 4 * tables.length → m w = h.mem w := by
  have hcount : pageDirectoryTotalEntries = 1024 := rfl
  have hbytes : tableBytes = 4096 := rfl
  have hr₁ := hz.repr
  -- the entry is held, and cleared
  have hin : entries + 4 * tables.length < entries + tableBytes := by omega
  have hzero : h₁.mem (entries + 4 * tables.length) = 0 :=
    (hz.words hf.dir_owns (Nat.le_add_right _ _) hin).trans (hf.rest _ hlen (Nat.le_refl _))
  have hslot := hz.apart hf.dir_owns (Nat.le_add_right entries (4 * tables.length)) hin
  rw [hzero]
  obtain ⟨m, hfold, hset, hkeep⟩ := foldl_setPage
    (h₁.onMem fun m => m.write (entries + 4 * tables.length) (setDirectoryEntry t flags 0)) t
    (show 4096 * 1024 * tables.length + 4096 * 1024 < 2 ^ 64 by omega)
  simp only [Heapdl.onMem] at hfold hset hkeep
  refine ⟨m, ?_, ?_, ?_, fun j hj => ?_, fun {q w} ho hlo hhi hne => ?_⟩
  · rw [show 4096 * 1024 * (tables.length + 1) = 4096 * 1024 * tables.length + 4096 * 1024 by omega]
    exact hfold
  · refine hr₁.congr_off fun w hw => ?_
    obtain ⟨a, ha, hlo, hhi⟩ := hw
    have hoff := (hz.keeps hf.dir_owns).1.off_header hr₁.wf ha
    have hoff' := hz.owns.off_header hr₁.wf ha
    exact (hkeep w fun j hj => by omega).trans (Mem.write_other _ _ (by omega))
  · exact (hkeep _ fun j hj => by omega).trans (Mem.write_self _ _ _)
  · have hj' : j < 1024 := hj
    have hword : h₁.mem.write (entries + 4 * tables.length) (setDirectoryEntry t flags 0)
        (t + 4 * j) = 0 :=
      (Mem.write_other _ _ (by omega)).trans (hz.zero j (by omega))
    rw [hset j hj', hword, tableWord, pageOsPageSize,
      show 4096 * 1024 * tables.length + 4096 * j = 4096 * (1024 * tables.length + j) by omega]
  · have hoff := hz.apart ho hlo hhi
    exact (hkeep w fun j hj => by omega).trans
      ((Mem.write_other _ _ hne).trans (hz.words ho hlo hhi))

/-- One more table. -/
theorem Filled.round (hf : Filled h A pd entries flags tables)
    (hlen : tables.length < pageDirectoryTotalEntries) (hg : HeapRepr g A)
    (hmf : g.memFree = h.memFree) (heq : kmalloc g (4 * pageTableTotalEntries) = some (g', t))
    (ht : t ≠ 0) :
    ∃ h' A', pdInitRound entries flags (h, 4096 * 1024 * tables.length) tables.length =
        some (h', 4096 * 1024 * (tables.length + 1)) ∧
      Filled h' A' pd entries flags (tables ++ [t]) ∧ HeapRepr g' A' ∧ g'.memFree = h'.memFree := by
  have hcount : pageDirectoryTotalEntries = 1024 := rfl
  have hcount' : pageTableTotalEntries = 1024 := rfl
  have hbytes : tableBytes = 4096 := rfl
  obtain ⟨h₁, A₁, hz, hzal, hg', hmf'⟩ := hf.repr.kzalloc hg hmf (by decide) heq ht
  obtain ⟨m, hfill, hr', hnew, htab, hkeep⟩ := hf.round_words hlen hzal
  -- the round writes one entry of the directory
  have hdir : ∀ {i : Nat}, i < 1024 → i ≠ tables.length →
      m (entries + 4 * i) = h.mem (entries + 4 * i) := fun hi hne =>
    hkeep hf.dir_owns (Nat.le_add_right _ _) (by omega) (by omega)
  refine ⟨_, A₁, ?_, ⟨hr', hzal.aligned hf.aligned, (hzal.keeps hf.pd_owns).1,
    (hzal.keeps hf.dir_owns).1, hf.pd_ne, ?_, fun t' ht' => ?_, fun i t' hi => ?_,
    fun i hi hle => ?_, fun i t' hi j hj => ?_⟩, hg', hmf'⟩
  · rw [pdInitRound, hz, Option.map_some]
    exact congrArg some hfill
  · have hdis := hf.pd_owns.disjoint hf.dir_owns hf.repr.wf hf.pd_ne
    exact (hkeep hf.pd_owns (Nat.le_refl _) (by omega) (by omega)).trans hf.pd_word
  · rcases mem_append.mp ht' with hold | hlast
    · obtain ⟨ho, hne⟩ := hf.owns t' hold
      exact ⟨(hzal.keeps ho).1, hne⟩
    · rw [mem_singleton.mp hlast]
      exact ⟨hzal.owns, (hzal.keeps hf.dir_owns).2.symm⟩
  · by_cases hi' : i < tables.length
    · rw [getElem?_append_left hi'] at hi
      exact (hdir (by omega) (by omega)).trans (hf.dir i t' hi)
    · rw [getElem?_append_right (by omega), getElem?_singleton] at hi
      split at hi
      · cases hi
        rw [show i = tables.length by omega]
        exact hnew
      · cases hi
  · rw [length_append, length_singleton] at hle
    exact (hdir hi (by omega)).trans (hf.rest i hi (by omega))
  · by_cases hi' : i < tables.length
    · rw [getElem?_append_left hi'] at hi
      obtain ⟨ho, hne⟩ := hf.owns t' (mem_of_getElem? hi)
      have hdis := ho.disjoint hf.dir_owns hf.repr.wf hne
      exact (hkeep ho (Nat.le_add_right _ _) (by omega) (by omega)).trans (hf.page i t' hi j hj)
    · rw [getElem?_append_right (by omega), getElem?_singleton] at hi
      split at hi
      · cases hi
        rw [show i = tables.length by omega]
        exact htab j hj
      · cases hi

/-- The outer loop, from any round on: the pointers are those of the plain requests. -/
theorem Filled.rounds {ts : List Nat} (hf : Filled h A pd entries flags tables)
    (hlen : tables.length + ts.length ≤ pageDirectoryTotalEntries) (hg : HeapRepr g A)
    (hmf : g.memFree = h.memFree) (heq : kmallocs tableBytes ts.length g = some ts)
    (hne : 0 ∉ ts) :
    ∃ s A', (List.range' tables.length ts.length).foldlM (pdInitRound entries flags)
        (h, 4096 * 1024 * tables.length) = some s ∧
      Filled s.1 A' pd entries flags (tables ++ ts) := by
  induction ts generalizing h A g tables with
  | nil => exact ⟨_, A, rfl, by rwa [append_nil]⟩
  | cons t ts ih =>
    rw [length_cons] at hlen heq ⊢
    obtain ⟨g', hmalloc, hrest⟩ := kmallocs_cons heq
    rw [mem_cons, not_or] at hne
    obtain ⟨h', A', hround, hf', hg', hmf'⟩ :=
      hf.round (by omega) hg hmf hmalloc (Ne.symm hne.1)
    have hlen' : (tables ++ [t]).length = tables.length + 1 := by simp
    obtain ⟨s, A'', hfold, hfilled⟩ := ih hf' (by omega) hg' hmf' hrest hne.2
    rw [hlen'] at hfold
    refine ⟨s, A'', ?_, ?_⟩
    · rw [range'_succ, foldlM_cons, hround]
      exact hfold
    · rwa [append_assoc, singleton_append] at hfilled

end Rounds

/-! ## `pd_init` -/

section Init

variable {h : Heapdl} {A : Arena} {pd entries flags : Nat} {tables : List Nat}

/-- **`pd_init` fills the directory and all tables**, as long as its requests are met. -/
theorem pdInit_filled (hr : HeapRepr h A) (hal : ∀ a ∈ A.addrs, osMemoryAlign ∣ a)
    (heq : kmallocs tableBytes (2 + pageDirectoryTotalEntries) h = some (pd :: entries :: tables))
    (hne : 0 ∉ pd :: entries :: tables) (flags : Nat) :
    ∃ h' A', pdInit h flags = some (h', pd) ∧ Filled h' A' pd entries flags tables := by
  have hlen : tables.length = pageDirectoryTotalEntries := by
    have hall := kmallocs_length heq
    rw [length_cons, length_cons] at hall
    omega
  rw [mem_cons, mem_cons, not_or, not_or] at hne
  rw [Nat.add_comm] at heq
  obtain ⟨g₁, hpd, hrest⟩ := kmallocs_cons heq
  obtain ⟨g₂, hdir, hrest⟩ := kmallocs_cons hrest
  obtain ⟨h₁, A₁, heq₁, hz₁, hg₁, hmf₁⟩ := hr.kzalloc hr rfl (by decide) hpd (Ne.symm hne.1)
  obtain ⟨h₂, A₂, heq₂, hz₂, hg₂, hmf₂⟩ :=
    hz₁.repr.kzalloc hg₁ hmf₁ (by decide) hdir (Ne.symm hne.2.1)
  have hpos : 0 < tableBytes := by decide
  obtain ⟨hpd₂, hpdne⟩ := hz₂.keeps hz₁.owns
  have hdis := hpd₂.disjoint hz₂.owns hz₂.repr.wf hpdne
  -- the pointer to the directory goes into the first payload
  have hstart : Filled { h₂ with mem := h₂.mem.write pd entries } A₂ pd entries flags [] := by
    refine ⟨hz₂.repr.store hpd₂ (Nat.le_refl _) (by omega), hz₂.aligned (hz₁.aligned hal), hpd₂,
      hz₂.owns, hpdne, Mem.write_self _ _ _, fun t ht => absurd ht not_mem_nil,
      fun i t hi => absurd hi (by simp), fun i hi _ => ?_, fun i t hi => absurd hi (by simp)⟩
    have hi' : i < tableBytes / 4 := hi
    have hbytes : tableBytes = 4096 := rfl
    exact (Mem.write_other _ _ (by omega)).trans (hz₂.zero i hi')
  rw [← hlen] at hrest
  obtain ⟨s, A', hfold, hfilled⟩ := hstart.rounds (by simp [hlen]) hg₂ hmf₂ hrest hne.2.2
  have hloop : (List.range pageDirectoryTotalEntries).foldlM (pdInitRound entries flags)
      ({ h₂ with mem := h₂.mem.write pd entries }, 0) = some s := by
    rw [range_eq_range', ← hlen]
    exact hfold
  refine ⟨s.1, A', ?_, hfilled⟩
  rw [pdInit, show sizeofPageDirectory = tableBytes from rfl, heq₁, Option.bind_some]
  dsimp only
  rw [show 4 * pageDirectoryTotalEntries = tableBytes from rfl, heq₂, Option.bind_some]
  dsimp only
  rw [hloop, Option.map_some]

/-- What a page directory made with `pd_init(flags)` is for: the walk from `pd->entries`, where
`paging_switch` points CR3, is the identity, the directory words carry the flags, and the table
words are present, writable and open to the user. -/
structure IdentityMapped (h : Heapdl) (pd flags : Nat) (tables : List Nat) : Prop where
  identity : ∀ va < 2 ^ 32, walk h.mem 32 twoLevel (h.mem pd &&& frameMask) va = va
  directory : ∀ i < pageDirectoryTotalEntries, h.mem (h.mem pd + 4 * i) &&& 0xfff = flags &&& 0xfff
  table : ∀ t ∈ tables, ∀ j < pageTableTotalEntries, ∀ b < 3,
    (h.mem (t + 4 * j)).testBit b = true

theorem Arena.Owns.wordAligned {p n : Nat} (ho : A.Owns p n) (hw : A.WF)
    (hal : ∀ a ∈ A.addrs, osMemoryAlign ∣ a) : WordAligned p := by
  have htop := ho.top hw
  exact ⟨by omega, Nat.dvd_trans (by decide) (ho.aligned hal)⟩

section Whole

variable (hf : Filled h A pd entries flags tables)
include hf

theorem Filled.numbered (hlen : tables.length = pageDirectoryTotalEntries) :
    Numbered h.mem entries flags fun i => tables[i]?.getD 0 := by
  refine ⟨fun i hi => ?_, fun i hi j hj => ?_⟩
  · rw [← hlen] at hi
    rw [getElem?_eq_getElem hi]
    exact hf.dir i _ (getElem?_eq_getElem hi)
  · rw [← hlen] at hi
    rw [getElem?_eq_getElem hi]
    exact hf.page i _ (getElem?_eq_getElem hi) j hj

theorem Filled.tables_aligned (hlen : tables.length = pageDirectoryTotalEntries) :
    ∀ i < pageDirectoryTotalEntries, WordAligned (tables[i]?.getD 0) := by
  intro i hi
  rw [← hlen] at hi
  rw [getElem?_eq_getElem hi]
  exact (hf.owns _ (getElem_mem hi)).1.wordAligned hf.repr.wf hf.aligned

/-- The walk through a filled directory. -/
theorem Filled.walk_iff (hlen : tables.length = pageDirectoryTotalEntries) :
    (∀ va < 2 ^ 32, walk h.mem 32 twoLevel (h.mem pd &&& frameMask) va = va) ↔
      4096 ∣ entries ∧ ∀ t ∈ tables, 4096 ∣ t := by
  have htree := (hf.numbered hlen).identityTree_iff
    (hf.dir_owns.wordAligned hf.repr.wf hf.aligned) (hf.tables_aligned hlen)
  have hregion : (∀ va < 2 ^ 32, walk h.mem 32 twoLevel (entries &&& frameMask) va = va) ↔
      IdentityTree h.mem 32 twoLevel (entries &&& frameMask) 0 := by
    have hcontiguous : Contiguous 32 twoLevel := ⟨rfl, rfl, trivial⟩
    rw [← walk_identity_iff hcontiguous]
    exact forall_congr' fun va => imp_congr_left (Nat.div_eq_zero_iff_lt (by decide)).symm
  rw [hf.pd_word, hregion, htree]
  refine and_congr_right fun _ => ⟨fun hall t ht => ?_, fun hall i hi => ?_⟩
  · obtain ⟨i, hi, rfl⟩ := getElem_of_mem ht
    have hdvd := hall i (hlen ▸ hi)
    rwa [getElem?_eq_getElem hi] at hdvd
  · rw [← hlen] at hi
    rw [getElem?_eq_getElem hi]
    exact hall _ (getElem_mem hi)

/-- What a filled directory is worth. -/
theorem Filled.identityMapped_iff (hlen : tables.length = pageDirectoryTotalEntries) :
    IdentityMapped h pd flags tables ↔
      (4096 ∣ entries ∧ ∀ t ∈ tables, 4096 ∣ t) ∧
        (flags.testBit 3 = flags.testBit 4 ∧ flags.testBit 4 = flags.testBit 5) := by
  have hdir : ∀ i < pageDirectoryTotalEntries,
      (h.mem (h.mem pd + 4 * i) &&& 0xfff = flags &&& 0xfff ↔
        flags.testBit 3 = flags.testBit 4 ∧ flags.testBit 4 = flags.testBit 5) := by
    intro i hi
    rw [hf.pd_word, (hf.numbered hlen).dir i hi, show 0xfff = 2 ^ 12 - 1 by decide,
      Nat.and_two_pow_sub_one_eq_mod, Nat.and_two_pow_sub_one_eq_mod, dirWord_flags_iff]
  have htable : ∀ t ∈ tables, ∀ j < pageTableTotalEntries, ∀ b < 3,
      (h.mem (t + 4 * j)).testBit b = true := by
    intro t ht j hj b hb
    obtain ⟨i, hi, rfl⟩ := getElem_of_mem ht
    rw [hf.page i _ (getElem?_eq_getElem hi) j hj]
    refine tableWord_flags ?_ b hb
    simp only [pageTableTotalEntries, pageDirectoryTotalEntries] at hj hlen
    omega
  constructor
  · intro hmap
    exact ⟨(hf.walk_iff hlen).mp hmap.identity,
      (hdir 0 (by decide)).mp (hmap.directory 0 (by decide))⟩
  · rintro ⟨hplaced, hflags⟩
    exact ⟨(hf.walk_iff hlen).mpr hplaced, fun i hi => (hdir i hi).mpr hflags, htable⟩

end Whole

end Init

/-- **When `pd_init` maps memory to itself**: on every heap that a history of `kmalloc` and `kfree`
leaves behind, with enough memory for the 1026 requests, exactly if the payloads that these get,
the first aside, start on a page, and bits 3, 4 and 5 of the flags are equal. -/
theorem pdInit_identity_iff (mem : Mem) {memStart memEnd : Nat}
    (hstart : memStart + osHeapBlockSize ≤ 2 ^ 32) (hend : memEnd < 2 ^ 32)
    (hroom : alignAddressToUpper memStart osHeapBlockSize + 3 * CHUNK.sizeof ≤
      alignAddressToLower memEnd osHeapBlockSize) {ops : List HeapOp}
    (hlegal : (heapMachine kmalloc kfree).AllSteps
      (fun r op => op.Legal (2 ^ 32 - osHeapBlockSize) r) (heapStart mem memStart memEnd) ops)
    {r : HeapRun}
    (hrun : (heapMachine kmalloc kfree).run (heapStart mem memStart memEnd) ops = some r)
    {pd entries : Nat} {tables : List Nat}
    (henough : kmallocs tableBytes (2 + pageDirectoryTotalEntries) r.heap =
      some (pd :: entries :: tables))
    (hnull : 0 ∉ pd :: entries :: tables) (flags : Nat) :
    ∃ h', pdInit r.heap flags = some (h', pd) ∧
      (IdentityMapped h' pd flags tables ↔
        (4096 ∣ entries ∧ ∀ t ∈ tables, 4096 ∣ t) ∧
          (flags.testBit 3 = flags.testBit 4 ∧ flags.testBit 4 = flags.testBit 5)) := by
  obtain ⟨r', hrun', A, hinv, hal⟩ := Machine.run_of_inv (fun _ _ h hop => KHeapInv.step h hop)
    (KHeapInv.start mem hstart hend hroom) hlegal
  cases hrun.symm.trans hrun'
  obtain ⟨h', A', heq, hfilled⟩ := pdInit_filled hinv.repr hal henough hnull flags
  refine ⟨h', heq, hfilled.identityMapped_iff ?_⟩
  have hlen := kmallocs_length henough
  rw [length_cons, length_cons] at hlen
  omega

/-! ## The heap of `k_mm_init` -/

/-- `OS_HEAP_ADDRESS`. -/
def osHeapAddress : Nat := 0x01000000

/-- `OS_HEAP_SIZE_BYTES`. -/
def osHeapSizeBytes : Nat := 1024 * 1024 * 112

/-- The heap that `k_mm_init` sets up, on cleared memory. -/
def bootHeap : Heapdl := kHeapdlMmInit (fun _ => 0) osHeapAddress (osHeapAddress + osHeapSizeBytes)

/-- The tables that `pd_init` gets from the new heap. -/
def bootTables : List Nat :=
  (List.range pageDirectoryTotalEntries).map fun i => 0x1002080 + i * 4128

theorem bootHeap_room : alignAddressToUpper osHeapAddress osHeapBlockSize + 3 * CHUNK.sizeof ≤
    alignAddressToLower (osHeapAddress + osHeapSizeBytes) osHeapBlockSize := by
  decide

/-- The blocks of the boot heap for the directory and its tables. -/
theorem kmallocs_bootHeap : kmallocs tableBytes (2 + pageDirectoryTotalEntries) bootHeap =
    some (0x1000040 :: 0x1001060 :: bootTables) := by
  have hone := OneFree.start (fun _ => 0) (by decide) bootHeap_room
  have hall := hone.kmallocs (2 + pageDirectoryTotalEntries)
    (show alignAddressToUpper tableBytes osHeapBlockSize = 4096 by decide) (by decide)
  refine hall.trans ?_
  rw [Nat.add_comm 2,
    show pageDirectoryTotalEntries + 2 = pageDirectoryTotalEntries + 1 + 1 from rfl,
    range_succ_eq_map, range_succ_eq_map, bootTables]
  simp only [map_cons, map_map, Option.some.injEq, List.cons.injEq]
  refine ⟨by decide, by decide, map_congr_left fun i _ => ?_⟩
  have hfirst : alignAddressToUpper osHeapAddress osHeapBlockSize = 0x1000000 := by decide
  simp only [Function.comp_apply, hfirst, CHUNK.sizeof]
  omega

theorem bootTables_ne_null : 0 ∉ 0x1000040 :: 0x1001060 :: bootTables := by
  simp [bootTables]

/-- The theorem on the new heap. -/
theorem pdInit_identity_iff_bootHeap :
    ∃ h', pdInit bootHeap 0b111 = some (h', 0x1000040) ∧
      (IdentityMapped h' 0x1000040 0b111 bootTables ↔
        (4096 ∣ 0x1001060 ∧ ∀ t ∈ bootTables, 4096 ∣ t) ∧
          (Nat.testBit 0b111 3 = Nat.testBit 0b111 4 ∧
            Nat.testBit 0b111 4 = Nat.testBit 0b111 5)) :=
  have hlegal : (heapMachine kmalloc kfree).AllSteps
      (fun r op => op.Legal (2 ^ 32 - osHeapBlockSize) r)
      (heapStart (fun _ => 0) osHeapAddress (osHeapAddress + osHeapSizeBytes)) [] := trivial
  pdInit_identity_iff (fun _ => 0) (by decide) (by decide) bootHeap_room hlegal rfl
    kmallocs_bootHeap bootTables_ne_null 0b111

/-- On the new heap the payloads start behind headers and not on pages. The walk of the last page
finds directory entry 999 instead of 1023, and there table entry 167: it ends elsewhere. -/
theorem pdInit_bootHeap_last_page :
    ∃ h', pdInit bootHeap 0b111 = some (h', 0x1000040) ∧
      walk h'.mem 32 twoLevel (h'.mem 0x1000040 &&& frameMask) 0xfffff000 = 0xf9ca7000 := by
  have hinv := KHeapInv.start (fun _ => 0) (by decide) (by decide) bootHeap_room
  obtain ⟨A, hinv, hal⟩ := hinv
  obtain ⟨h', A', heq, hf⟩ := pdInit_filled hinv.repr hal kmallocs_bootHeap
    bootTables_ne_null 0b111
  have hlen : bootTables.length = pageDirectoryTotalEntries := by simp [bootTables]
  have hw := hf.repr.wf
  have htable : bootTables[999]?.getD 0 = 0x13f0d60 := by
    simp [bootTables, pageDirectoryTotalEntries]
  have hleaf := (hf.numbered hlen).leaf (i := 1023) (j := 1023)
    (hf.dir_owns.wordAligned hw hf.aligned) (hf.tables_aligned hlen) (by decide) (by decide)
    (show 1023 - 0x1001060 % 4096 / 4 = 999 by decide) (by rw [htable]; decide) (by decide)
  rw [htable] at hleaf
  refine ⟨h', heq, ?_⟩
  rw [hf.pd_word]
  exact (congrArg (· + 0xfffff000 % 2 ^ 12) hleaf).trans (by decide)

end UnagiOs
