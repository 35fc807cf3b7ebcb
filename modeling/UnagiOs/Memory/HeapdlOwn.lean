import UnagiOs.Memory.HeapdlFit
import UnagiOs.Memory.HeapdlFrame

/-!
# What the holder of a payload relies on

A function that allocates several payloads and fills them needs three facts about the heap.

- What it holds is its own: later requests leave the payload and its contents alone, and hand out
  others (`Zalloc`, `HeapRepr.kzalloc`).
- What it writes there does not touch the heap (`HeapRepr.store`).
- Which pointers it gets does not depend on what it writes: two heaps that hold one arena, with
  one counter, answer alike (`HeapRepr.malloc_same`). So the pointers are those of the plain
  requests, one after another (`kmallocs`).
-/

namespace UnagiOs

open Links List

theorem Arena.Owns.offFields {A : Arena} {p n w : Nat} (ho : A.Owns p n) (hw : A.WF) (hlo : p ≤ w)
    (hhi : w < p + n) : A.OffFields w := by
  refine Arena.offFields_of_off fun a ha => ?_
  have hoff := ho.off_header hw ha
  omega

/-! ## One arena, one answer -/

section Same

variable {h h' h₁ : Heapdl} {A A' : Arena} {s a c : Nat} {b : Block}

/-- The block at an address, as the heap describes it. -/
def Heapdl.blockAt (h : Heapdl) (a : Nat) : Block :=
  ⟨a, h.mem (a + CHUNK.size), h.mem.isUsed a⟩

theorem HeapRepr.mid_eq (hr : HeapRepr h A) : A.mid = (A.mid.map Block.addr).map h.blockAt := by
  rw [map_map]
  refine (map_id A.mid).symm.trans (map_congr_left fun b hb => ?_)
  have hsize := hr.holds.size b (Arena.mem_blocks hb)
  have hused := hr.holds.isUsed (Arena.mem_blocks hb)
  rw [Function.comp_apply, Heapdl.blockAt, hsize, hused]
  rfl

/-- A heap holds one arena. -/
theorem HeapRepr.unique (hr : HeapRepr h A) (hr' : HeapRepr h A') : A = A' := by
  have hfirst := hr.first.symm.trans hr'.first
  have hlast := hr.last.symm.trans hr'.last
  have hfree := hr.freeChunks_eq.symm.trans hr'.freeChunks_eq
  have haddrs := hr.chunks_eq.symm.trans hr'.chunks_eq
  rw [Arena.addrs_eq, Arena.addrs_eq, hfirst, hlast, List.cons.injEq] at haddrs
  have hmid : A.mid = A'.mid := by
    rw [hr.mid_eq, hr'.mid_eq, append_cancel_right haddrs.2]
  cases A
  cases A'
  simp_all

theorem HeapRepr.firstFit_same (hr : HeapRepr h A) (hr₁ : HeapRepr h₁ A) :
    h.firstFit s = h₁.firstFit s := by
  rw [Heapdl.firstFit, Heapdl.firstFit, hr.freeChunks_eq, hr₁.freeChunks_eq]
  refine find?_congr fun c hc => ?_
  obtain ⟨b, hb, rfl, -⟩ := hr.wf.mem_free.mp hc
  rw [hr.actualFree hb, hr₁.actualFree hb]

/-- Slicing a free block and engaging its first part. -/
theorem HeapRepr.slice_engage (hr : HeapRepr h A) {pre post : List Block} {f₁ f₂ : List Nat}
    (hmid : A.mid = pre ++ b :: post) (hfree : A.free = f₁ ++ b.addr :: f₂) (hu : b.used = false)
    (hsz : CHUNK.sizeof + s + CHUNK.sizeof ≤ b.size) :
    HeapRepr (chunkEngage (chunkSlice h b.addr s) b.addr) { A with
        mid := pre ++ ⟨b.addr, CHUNK.sizeof + s, true⟩ ::
          ⟨b.addr + (CHUNK.sizeof + s), b.size - (CHUNK.sizeof + s), false⟩ :: post,
        free := f₁ ++ (b.addr + (CHUNK.sizeof + s)) :: f₂ } ∧
      (chunkEngage (chunkSlice h b.addr s) b.addr).memFree =
        sub32 h.memFree (CHUNK.sizeof + s) := by
  obtain ⟨hr₁, hmf₁⟩ := hr.slice hmid hfree hu hsz
  obtain ⟨hr₂, hmf₂⟩ := hr₁.engage rfl rfl rfl
  exact ⟨hr₂, hmf₂.trans (by rw [hmf₁])⟩

/-- What engaging a free block does, whole or sliced, is a matter of the arena alone. -/
theorem Arena.taken (hb : b ∈ A.mid) (hu : b.used = false) (hw : A.WF) (s : Nat) :
    ∃ A' d, ∀ {h h' : Heapdl}, HeapRepr h A → (if b.size - CHUNK.sizeof - s < osHeapBlockSize
        then chunkEngage h b.addr else chunkEngage (chunkSlice h b.addr s) b.addr) = h' →
      HeapRepr h' A' ∧ h'.memFree = sub32 h.memFree d := by
  obtain ⟨pre, post, hmid⟩ := append_of_mem hb
  obtain ⟨f₁, f₂, hfree⟩ := append_of_mem (hw.mem_free.mpr ⟨b, hb, rfl, hu⟩)
  by_cases hlt : b.size - CHUNK.sizeof - s < osHeapBlockSize
  · simp only [if_pos hlt]
    exact ⟨_, _, fun hr heq => heq ▸ hr.engage hmid hfree hu⟩
  · have hroom : CHUNK.sizeof + s + CHUNK.sizeof ≤ b.size := by
      have : CHUNK.sizeof ≤ osHeapBlockSize := by decide
      have : 0 < osHeapBlockSize := by decide
      omega
    simp only [if_neg hlt]
    exact ⟨_, _, fun hr heq => heq ▸ hr.slice_engage hmid hfree hu hroom⟩

/-- Two heaps that hold one arena, with one counter, hand out one pointer, and hold one arena
afterwards, with one counter. -/
theorem HeapRepr.malloc_same (hr : HeapRepr h A) (hr₁ : HeapRepr h₁ A)
    (hmf : h.memFree = h₁.memFree) (heq : kHeapdlMmMalloc h s = some (h', a + CHUNK.sizeof)) :
    ∃ h₁', kHeapdlMmMalloc h₁ s = some (h₁', a + CHUNK.sizeof) ∧ h'.memFree = h₁'.memFree ∧
      ∃ A', HeapRepr h' A' ∧ HeapRepr h₁' A' := by
  have hc := hr.firstFit_of_malloc heq
  have hguard : s ≤ h.memFree ∧ h.memFree ≠ 0 := by
    by_contra hguard
    rw [kHeapdlMmMalloc_guard hguard, Option.some.injEq, Prod.mk.injEq] at heq
    exact absurd heq.2.symm (Nat.succ_ne_zero _)
  obtain ⟨b, hb, rfl, hu⟩ := hr.wf.mem_free.mp (hr.mem_free_of_firstFit hc)
  have heq₁ := hr₁.malloc_some (hr.firstFit_same hr₁ ▸ hc) (hmf ▸ hguard)
  rw [hr.malloc_some hc hguard, hr.actualFree hb, Option.some.injEq, Prod.mk.injEq] at heq
  rw [hr₁.actualFree hb, hr₁.freeOffset hb] at heq₁
  obtain ⟨A', d, htaken⟩ := Arena.taken hb hu hr.wf s
  obtain ⟨hr', hmf'⟩ := htaken hr heq.1
  obtain ⟨hr₁', hmf₁'⟩ := htaken hr₁ rfl
  exact ⟨_, heq₁, by rw [hmf', hmf₁', hmf], A', hr', hr₁'⟩

end Same

/-! ## Requests for cleared memory -/

/-- What `kzalloc` leaves behind: the holder has a new payload, all zero, and keeps the others with
their contents. -/
structure Zalloc (h h' : Heapdl) (A A' : Arena) (p size : Nat) : Prop where
  repr : HeapRepr h' A'
  owns : A'.Owns p size
  zero : ∀ j < size / 4, h'.mem (p + 4 * j) = 0
  keeps : ∀ {q n : Nat}, A.Owns q n → A'.Owns q n ∧ q ≠ p
  words : ∀ {q n w : Nat}, A.Owns q n → q ≤ w → w < q + n → h'.mem w = h.mem w
  aligned : (∀ a ∈ A.addrs, osMemoryAlign ∣ a) → ∀ a ∈ A'.addrs, osMemoryAlign ∣ a

section Zalloc

variable {h h' g g' : Heapdl} {A A' : Arena} {p q n s size w : Nat} {ptr j : Nat} {e : Block}

theorem kmemsetZero_mem (m : Mem) {k : Nat} (hj : j < k) :
    kmemsetZero m ptr k (ptr + 4 * j) = 0 := by
  induction k with
  | zero => cases hj
  | succ k ih =>
    rw [kmemsetZero]
    by_cases hjk : j = k
    · rw [hjk, Mem.write_self]
    · rw [Mem.write_other _ _ (by omega)]
      exact ih (by omega)

theorem kmemsetZeroBytes_mem (m : Mem) (hj : j < size / 4) :
    kmemsetZeroBytes m ptr size (ptr + 4 * j) = 0 := by
  simp only [kmemsetZeroBytes]
  split
  · exact kmemsetZero_mem m hj
  · rw [Mem.write_other _ _ (by omega)]
    exact kmemsetZero_mem m hj

theorem Took.owns (ht : Took A A' s e) (hsize : size ≤ s) :
    A'.Owns (e.addr + CHUNK.sizeof) size := by
  have hroom := ht.room
  exact ⟨e, (ht.inUse e).mpr (.inl rfl), rfl, by omega⟩

/-- A payload in use stays in use, and is not the one handed out. -/
theorem Took.keeps (ht : Took A A' s e) (hw : A.WF) (ho : A.Owns q n) :
    A'.Owns q n ∧ q ≠ e.addr + CHUNK.sizeof := by
  obtain ⟨b, hb, rfl, hsz⟩ := ho
  refine ⟨⟨b, (ht.inUse b).mpr (.inr hb), rfl, hsz⟩, fun heq => ?_⟩
  obtain ⟨hbm, hu⟩ := Arena.mem_inUse.mp hb
  rw [Nat.add_right_cancel_iff] at heq
  exact hw.used_off_free hbm hu (heq ▸ mem_cons_of_mem _ ht.was_free)

/-- The contents of a payload in use stay. -/
theorem Kept.payload {a : Nat} (hk : Kept h h' A A' s a) (ha : a ∈ A.addrs) (hw : A.WF)
    (hw' : A'.WF) (ho : A.Owns q n) (ho' : A'.Owns q n) (hlo : q ≤ w) (hhi : w < q + n) :
    h'.mem w = h.mem w := by
  refine hk.word w (ho.offFields hw hlo hhi) (fun c hc => .inr ?_) ?_
  · have hoff := ho'.off_header hw' hc
    omega
  · have hoff := ho.off_header hw ha
    simp only [CHUNK.isUsed, CHUNK.sizeof] at *
    omega

/-- **`kzalloc` on a heap that holds the arena of another heap**: it answers as `kmalloc` does
there. -/
theorem HeapRepr.kzalloc (hr : HeapRepr h A) (hg : HeapRepr g A) (hmf : g.memFree = h.memFree)
    (hsize : size + osHeapBlockSize ≤ 2 ^ 32) (heq : kmalloc g size = some (g', p)) (hp : p ≠ 0) :
    ∃ h' A', kzalloc h size = some (h', p) ∧ Zalloc h h' A A' p size ∧ HeapRepr g' A' ∧
      g'.memFree = h'.memFree := by
  obtain ⟨hle, -, hdvd⟩ := alignAddressToUpper_spec (show 0 < osHeapBlockSize by decide) hsize
  rw [kmalloc] at heq
  rcases hg.malloc (alignAddressToUpper size osHeapBlockSize) with
    ⟨hnull, -⟩ | ⟨g₁, A₁, e, heq₁, hg₁, ht, -⟩
  · rw [hnull, Option.some.injEq, Prod.mk.injEq] at heq
    exact absurd heq.2.symm hp
  · cases heq₁.symm.trans heq
    obtain ⟨h₁, heqh, hmf₁, A', hg', hr₁⟩ := hg.malloc_same hr hmf heq₁
    cases hg₁.unique hg'
    have hkept := hr.malloc_frame heqh hr₁
    have howns := ht.owns hle
    have hoff : ∀ {w : Nat}, w < e.addr + CHUNK.sizeof ∨ e.addr + CHUNK.sizeof + size ≤ w →
        kmemsetZeroBytes h₁.mem (e.addr + CHUNK.sizeof) size w = h₁.mem w :=
      fun hw => kmemsetZeroBytes_off _ hw
    refine ⟨h₁.onMem fun m => kmemsetZeroBytes m (e.addr + CHUNK.sizeof) size, A₁, ?_, ?_, hg₁,
      hmf₁⟩
    · rw [UnagiOs.kzalloc, kmalloc, heqh, Option.map_some]
      exact congrArg some (if_neg hp)
    · refine ⟨hr₁.congr_off fun w ⟨a, ha, hlo, hhi⟩ => hoff ?_, howns,
        fun j hj => kmemsetZeroBytes_mem _ hj, ht.keeps hr.wf, fun {q n w} ho hlo hhi => ?_,
        fun hal a ha => ?_⟩
      · have := howns.off_header hr₁.wf ha
        omega
      · obtain ⟨ho', hne⟩ := ht.keeps hr.wf ho
        have hdis := ho'.disjoint howns hr₁.wf hne
        exact (hoff (by omega)).trans (hkept.payload (hr.wf.free_subset ht.was_free) hr.wf
          hr₁.wf ho ho' hlo hhi)
      · rcases ht.addrs a ha with hold | rfl
        · exact hal a hold
        · exact Nat.dvd_add (hal _ (hr.wf.free_subset ht.was_free))
            (Nat.dvd_add (by decide) (Nat.dvd_trans (by decide) hdvd))

end Zalloc

/-! ## Requests one after another -/

/-- The pointers of `n` requests, one after another. -/
def kmallocs (size : Nat) : Nat → Heapdl → Option (List Nat)
  | 0, _ => some []
  | n + 1, h => (kmalloc h size).bind fun r => (kmallocs size n r.1).map fun ps => r.2 :: ps

theorem kmallocs_cons {size n p : Nat} {h : Heapdl} {ps : List Nat}
    (heq : kmallocs size (n + 1) h = some (p :: ps)) :
    ∃ h', kmalloc h size = some (h', p) ∧ kmallocs size n h' = some ps := by
  obtain ⟨⟨h', p'⟩, hp, hps⟩ := Option.bind_eq_some_iff.mp heq
  obtain ⟨ps', hps', hcons⟩ := Option.map_eq_some_iff.mp hps
  obtain ⟨rfl, rfl⟩ := List.cons.inj hcons
  exact ⟨h', hp, hps'⟩

theorem kmallocs_length {size n : Nat} {h : Heapdl} {ps : List Nat}
    (heq : kmallocs size n h = some ps) : ps.length = n := by
  induction n generalizing h ps with
  | zero =>
    cases heq
    rfl
  | succ n ih =>
    cases ps with
    | nil =>
      obtain ⟨r, -, hps⟩ := Option.bind_eq_some_iff.mp heq
      obtain ⟨ps', -, hcons⟩ := Option.map_eq_some_iff.mp hps
      cases hcons
    | cons p ps =>
      obtain ⟨h', -, hps⟩ := kmallocs_cons heq
      rw [length_cons, ih hps]

/-- A heap with one free block, all of which is counted. -/
structure OneFree (h : Heapdl) (A : Arena) (a size : Nat) : Prop where
  repr : HeapRepr h A
  free : A.free = [a]
  block : ⟨a, size, false⟩ ∈ A.mid
  counter : h.memFree = size - CHUNK.sizeof

section OneFree

variable {h : Heapdl} {A : Arena} {a s size bytes : Nat}

theorem OneFree.start (mem : Mem) {memStart memEnd : Nat} (hend : memEnd < 2 ^ 32)
    (hroom : alignAddressToUpper memStart osHeapBlockSize + 3 * CHUNK.sizeof ≤
      alignAddressToLower memEnd osHeapBlockSize) :
    OneFree (kHeapdlMmInit mem memStart memEnd)
      (initArena (alignAddressToUpper memStart osHeapBlockSize)
        (alignAddressToLower memEnd osHeapBlockSize - CHUNK.sizeof))
      (alignAddressToUpper memStart osHeapBlockSize + CHUNK.sizeof)
      (alignAddressToLower memEnd osHeapBlockSize - CHUNK.sizeof -
        (alignAddressToUpper memStart osHeapBlockSize + CHUNK.sizeof)) := by
  obtain ⟨hr, hmf, -⟩ := kHeapdlMmInit_repr mem hend hroom
  exact ⟨hr, rfl, mem_singleton.mpr rfl, hmf⟩

/-- A request that leaves a whole block over is sliced off the free block. -/
theorem OneFree.malloc (ho : OneFree h A a size)
    (hroom : CHUNK.sizeof + s + osHeapBlockSize ≤ size) :
    ∃ h' A', kHeapdlMmMalloc h s = some (h', a + CHUNK.sizeof) ∧
      OneFree h' A' (a + (CHUNK.sizeof + s)) (size - (CHUNK.sizeof + s)) := by
  have h32 : CHUNK.sizeof = 32 := rfl
  have hblock : osHeapBlockSize = 4096 := rfl
  have hr := ho.repr
  have hactual := hr.actualFree ho.block
  have hend := hr.wf.end_le ho.block
  have hcounter := ho.counter
  simp only at hactual hend
  have hfit : h.firstFit s = some a := by
    rw [Heapdl.firstFit, hr.freeChunks_eq, ho.free, find?_cons_of_pos]
    rw [hactual]
    exact decide_eq_true (by omega)
  have hval := hr.malloc_some hfit (by omega)
  rw [hactual, if_neg (by omega), hr.freeOffset ho.block] at hval
  obtain ⟨pre, post, hmid⟩ := append_of_mem ho.block
  obtain ⟨hr', hmf'⟩ := hr.slice_engage hmid (show A.free = [] ++ a :: [] from ho.free) rfl
    (show CHUNK.sizeof + s + CHUNK.sizeof ≤ size by omega)
  refine ⟨_, _, hval, hr', rfl, by simp, ?_⟩
  rw [hmf', hcounter, sub32_of_le (by omega) (by omega)]
  omega

/-- As long as the block lasts, requests for one size get equally spaced payloads. -/
theorem OneFree.kmallocs (ho : OneFree h A a size) (n : Nat)
    (hs : alignAddressToUpper bytes osHeapBlockSize = s)
    (hroom : n * (CHUNK.sizeof + s) + osHeapBlockSize ≤ size) :
    UnagiOs.kmallocs bytes n h =
      some ((List.range n).map fun i => a + CHUNK.sizeof + i * (CHUNK.sizeof + s)) := by
  induction n generalizing h A a size with
  | zero => rfl
  | succ n ih =>
    rw [Nat.succ_mul] at hroom
    obtain ⟨h', A', hmalloc, ho'⟩ := ho.malloc (s := s) (by omega)
    have hrest := ih ho' (by omega)
    rw [UnagiOs.kmallocs, kmalloc, hs, hmalloc, Option.bind_some, hrest, Option.map_some,
      range_succ_eq_map, map_cons, map_map]
    simp only [Nat.zero_mul, Nat.add_zero, Option.some.injEq, List.cons.injEq, true_and]
    refine map_congr_left fun i _ => ?_
    simp only [Function.comp_apply, Nat.succ_mul]
    omega

end OneFree

end UnagiOs
