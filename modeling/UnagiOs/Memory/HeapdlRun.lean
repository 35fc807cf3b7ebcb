import Mathlib.Data.List.Chain
import UnagiOs.Theory.Machine
import UnagiOs.Memory.HeapdlOps

/-!
# Histories of the heap

The heap as a machine: callers allocate, return what they hold, and write into
the payloads that they hold. The machine remembers the live blocks, each as the
pointer handed out and the size asked for; the code itself keeps no such list.
It is stated over the pair of an allocation and a release function, and used
both at `kmalloc`/`kfree` and at `k_heapdl_mm_malloc`/`k_heapdl_mm_free`.

- `HeapSound` is what a caller relies on: the chunks tile the region, the free
  ring holds the unused chunks, and live payloads are aligned, in the region
  and disjoint from each other and from all headers. It holds after every
  history (`kmalloc_kfree_sound`).
- The counter `mem_free` is the number of free bytes exactly along the
  histories in which no allocation takes a chunk whole (`memFree_exact_iff`):
  `chunk_engage` subtracts the header of such a chunk, which was not counted.
-/

namespace UnagiOs

open Links List

/-! ## What the heap says about itself -/

/-- The chunks on the `all` ring, read from `first`. -/
def Heapdl.chunks (h : Heapdl) : List Nat :=
  h.first :: (Mem.links.walk h.mem (h.first + CHUNK.all) (2 ^ 32)
    (Mem.links.next h.mem (h.first + CHUNK.all))).map (· - CHUNK.all)

/-- The chunks on the `free` ring, read from `free_chunk_head`, which is not
itself a free chunk. -/
def Heapdl.freeChunks (h : Heapdl) : List Nat :=
  (Mem.links.walk h.mem (h.freeChunkHead + CHUNK.free) (2 ^ 32)
    (Mem.links.next h.mem (h.freeChunkHead + CHUNK.free))).map (· - CHUNK.free)

/-- The sum over all chunks with `isUsed` = false of their size without the header. -/
def Heapdl.freeSum (h : Heapdl) : Nat :=
  ((h.chunks.filter fun c => h.mem.isUsed c = false).map
    fun c => h.mem (c + CHUNK.size) - alignedHeader).sum

section Reading

variable {h : Heapdl} {A : Arena}

theorem HeapRepr.chunks_eq (hr : HeapRepr h A) : h.chunks = A.addrs := by
  have hnd := nodup_map_add CHUNK.all hr.wf.addrs_nodup
  rw [Arena.addrs_eq, map_cons, nodup_cons] at hnd
  have hwalk := hr.holds.all.walk_eq hnd.1 (2 ^ 32)
    (by rw [length_map]; exact hr.wf.all_length_lt)
  rw [Heapdl.chunks, hr.first, hwalk, Arena.addrs_eq, map_map]
  simp [Function.comp_def]

theorem HeapRepr.freeChunks_eq (hr : HeapRepr h A) : h.freeChunks = A.free := by
  have hnd := nodup_map_add CHUNK.free hr.wf.free_ring_nodup
  rw [map_cons, nodup_cons] at hnd
  have hwalk := hr.holds.free.walk_eq hnd.1 (2 ^ 32)
    (by rw [length_map]; exact hr.wf.free_length_lt)
  rw [Heapdl.freeChunks, hr.head, hwalk, map_map]
  simp [Function.comp_def]

/-- The sizes on the free list add up to the free bytes of the arena. -/
theorem HeapRepr.freeSum_eq (hr : HeapRepr h A) : h.freeSum = A.freeBytes := by
  have hflag : ∀ b ∈ A.blocks, decide (h.mem.isUsed b.addr = false) = !b.used := by
    intro b hb
    rw [hr.holds.isUsed hb]
    cases b.used <;> rfl
  have hsize : ∀ b ∈ A.blocks, h.mem (b.addr + CHUNK.size) - alignedHeader =
      b.size - CHUNK.sizeof := by
    intro b hb
    rw [hr.holds.size b hb, alignedHeader_eq]
  have hunused : A.blocks.filter ((fun c => decide (h.mem.isUsed c = false)) ∘ Block.addr) =
      A.unused := by
    refine (filter_congr hflag).trans ?_
    simp [Arena.blocks, Arena.unused, filter_append]
  rw [Heapdl.freeSum, hr.chunks_eq, Arena.addrs, filter_map, map_map, hunused,
    Arena.freeBytes]
  refine congrArg List.sum (map_congr_left fun b hb => ?_)
  exact hsize b (Arena.mem_blocks (mem_of_mem_filter hb))

end Reading

/-! ## The machine -/

/-- The heap and its live blocks: the pointer handed out, the size asked for. -/
structure HeapRun where
  heap : Heapdl
  live : List (Nat × Nat)

/-- What callers do. -/
inductive HeapOp where
  | malloc (s : Nat)
  | free (p : Nat)
  /-- The holder of a block writes a word of its payload. -/
  | store (w v : Nat)

/-- The heap driven through an allocation function and a release function. -/
def heapMachine (alloc : Heapdl → Nat → Option (Heapdl × Nat)) (dealloc : Heapdl → Nat → Heapdl) :
    Machine HeapRun HeapOp where
  step r
    | .malloc s => (alloc r.heap s).map fun (h, p) =>
        if p = 0 then { r with heap := h } else ⟨h, (p, s) :: r.live⟩
    | .free p => some ⟨dealloc r.heap p, r.live.filter fun x => x.1 ≠ p⟩
    | .store w v => some { r with heap := r.heap.onMem fun m => m.write w v }

/-- The state after `k_heapdl_mm_init`. -/
def heapStart (mem : Mem) (memStart memEnd : Nat) : HeapRun :=
  ⟨kHeapdlMmInit mem memStart memEnd, []⟩

/-- Callers return `NULL` or what they hold, and write inside what they hold;
`maxSize` bounds what they ask for. -/
def HeapOp.Legal (maxSize : Nat) (r : HeapRun) : HeapOp → Prop
  | .malloc s => s ≤ maxSize
  | .free p => p = 0 ∨ p ∈ r.live.map Prod.fst
  | .store w _ => ∃ x ∈ r.live, x.1 ≤ w ∧ w + 4 ≤ x.1 + x.2

/-- What callers rely on, for a heap on the region from `lo` to `hi`. -/
structure HeapSound (lo hi : Nat) (h : Heapdl) (live : List (Nat × Nat)) : Prop where
  all_ring : Mem.links.Ring h.mem (h.first + CHUNK.all) (h.chunks.tail.map (· + CHUNK.all))
  tiles_from : h.chunks.head? = some lo
  tiles : h.chunks.IsChain fun c c' => c + h.mem (c + CHUNK.size) = c'
  tiles_to : h.chunks.getLast? = some h.last ∧ h.last + h.mem (h.last + CHUNK.size) = hi
  free_ring :
    Mem.links.Ring h.mem (h.freeChunkHead + CHUNK.free) (h.freeChunks.map (· + CHUNK.free))
  free_once : h.freeChunks.Nodup
  free_iff : ∀ c, c ∈ h.freeChunks ↔ c ∈ h.chunks ∧ h.mem.isUsed c = false
  aligned : ∀ x ∈ live, osMemoryAlign ∣ x.1
  inside : ∀ x ∈ live, lo ≤ x.1 ∧ x.1 + x.2 ≤ hi
  disjoint : live.Pairwise fun x y => x.1 + x.2 ≤ y.1 ∨ y.1 + y.2 ≤ x.1
  off_headers : ∀ x ∈ live, ∀ c ∈ h.chunks, x.1 + x.2 ≤ c ∨ c + CHUNK.sizeof ≤ x.1

/-! ## The invariant -/

/-- Each live pointer is the payload of its own block in use. -/
structure HeapInv (lo hi : Nat) (r : HeapRun) (A : Arena) : Prop where
  repr : HeapRepr r.heap A
  first : A.first = lo
  last : A.last + CHUNK.sizeof = hi
  live : ∀ x ∈ r.live, ∃ b ∈ A.inUse, x.1 = b.addr + CHUNK.sizeof ∧ CHUNK.sizeof + x.2 ≤ b.size
  nodup : (r.live.map Prod.fst).Nodup

section Invariant

variable {lo hi : Nat} {r : HeapRun} {A A' : Arena} {h' : Heapdl}

theorem HeapInv.start (mem : Mem) {memStart memEnd : Nat} (hend : memEnd < 2 ^ 32)
    (hroom : alignAddressToUpper memStart osHeapBlockSize + 3 * CHUNK.sizeof ≤
      alignAddressToLower memEnd osHeapBlockSize) :
    HeapInv (alignAddressToUpper memStart osHeapBlockSize)
      (alignAddressToLower memEnd osHeapBlockSize) (heapStart mem memStart memEnd)
      (initArena (alignAddressToUpper memStart osHeapBlockSize)
        (alignAddressToLower memEnd osHeapBlockSize - CHUNK.sizeof)) := by
  refine ⟨(kHeapdlMmInit_repr mem hend hroom).1, rfl, Nat.sub_add_cancel (by omega), ?_,
    nodup_nil⟩
  intro x hx
  cases hx

variable (hinv : HeapInv lo hi r A)
include hinv

/-- A block handed out joins the live blocks. -/
theorem HeapInv.took {s n : Nat} {e : Block} (ht : Took A A' s e)
    (hr' : HeapRepr h' A') (hn : n ≤ s) :
    HeapInv lo hi ⟨h', (e.addr + CHUNK.sizeof, n) :: r.live⟩ A' := by
  have hroom := ht.room
  refine ⟨hr', ht.first.trans hinv.first, by rw [ht.last]; exact hinv.last, ?_, ?_⟩
  · intro x hx
    rcases mem_cons.mp hx with rfl | hx
    · exact ⟨e, (ht.inUse e).mpr (.inl rfl), rfl, Nat.le_trans (by simpa using hn) hroom⟩
    · obtain ⟨b, hb, hxb⟩ := hinv.live x hx
      exact ⟨b, (ht.inUse b).mpr (.inr hb), hxb⟩
  · refine nodup_cons.mpr ⟨fun hmem => ?_, hinv.nodup⟩
    -- its block was free, those of the live pointers were in use
    obtain ⟨x, hx, hxe⟩ := mem_map.mp hmem
    obtain ⟨b, hb, hxb, -⟩ := hinv.live x hx
    obtain ⟨hbm, hbu⟩ := Arena.mem_inUse.mp hb
    have hbe : b.addr = e.addr := by
      simp only at hxe
      omega
    exact hinv.repr.wf.used_off_free hbm hbu (by rw [hbe]; exact mem_cons_of_mem _ ht.was_free)

/-- A block returned leaves the live blocks. -/
theorem HeapInv.freed {c : Block} (hf : Freed A A' c) (hr' : HeapRepr h' A') :
    HeapInv lo hi ⟨h', r.live.filter fun x => x.1 ≠ c.addr + CHUNK.sizeof⟩ A' := by
  refine ⟨hr', hf.first.trans hinv.first, by rw [hf.last]; exact hinv.last, ?_, ?_⟩
  · intro x hx
    obtain ⟨hx, hne⟩ := mem_filter.mp hx
    obtain ⟨b, hb, hxb, hsz⟩ := hinv.live x hx
    refine ⟨b, (hf.inUse b).mpr ⟨hb, fun he => ?_⟩, hxb, hsz⟩
    rw [he] at hxb
    simp [hxb] at hne
  · exact hinv.nodup.sublist (filter_sublist.map _)

theorem HeapInv.owns {x : Nat × Nat} (hx : x ∈ r.live) : A.Owns x.1 x.2 := hinv.live x hx

theorem HeapInv.stored {w v : Nat} (hl : ∃ x ∈ r.live, x.1 ≤ w ∧ w + 4 ≤ x.1 + x.2) :
    HeapInv lo hi { r with heap := r.heap.onMem fun m => m.write w v } A := by
  obtain ⟨x, hx, hlo, hhi⟩ := hl
  exact { hinv with repr := hinv.repr.store (hinv.owns hx) hlo (by omega) }

omit hinv in
/-- The addresses of tiles, chained by their sizes. -/
theorem Tiles.chain {S : Nat → Nat} {l : List Block} {a z : Nat} (ht : Tiles a l z)
    (hS : ∀ b ∈ l, S b.addr = b.size) : (l.map Block.addr).IsChain fun c c' => c + S c = c' := by
  induction l generalizing a with
  | nil => exact List.IsChain.nil
  | cons b l ih =>
    have hrest := ih ht.2 fun b' hb' => hS b' (mem_cons_of_mem _ hb')
    cases l with
    | nil => exact List.IsChain.singleton _
    | cons b' l =>
      refine isChain_cons_cons.mpr ⟨?_, hrest⟩
      rw [hS b mem_cons_self, ht.1]
      exact ht.2.1.symm

/-- What the invariant gives to the callers. -/
theorem HeapInv.sound (hal : ∀ a ∈ A.addrs, osMemoryAlign ∣ a) : HeapSound lo hi r.heap r.live := by
  have hr := hinv.repr
  have hchunks := hr.chunks_eq
  have hfree := hr.freeChunks_eq
  have hlast : r.heap.mem (A.last + CHUNK.size) = CHUNK.sizeof :=
    hr.holds.size ⟨A.last, CHUNK.sizeof, true⟩ (by simp [Arena.blocks])
  refine ⟨?_, ?_, ?_, ⟨?_, ?_⟩, ?_, ?_, ?_, ?_, ?_, ?_, ?_⟩
  · rw [hchunks, hr.first, Arena.addrs_eq, tail_cons]
    exact hr.holds.all
  · rw [hchunks, Arena.addrs_eq, head?_cons, hinv.first]
  · rw [hchunks]
    exact hr.wf.tiles_blocks.chain (S := fun c => r.heap.mem (c + CHUNK.size)) hr.holds.size
  · rw [hchunks, Arena.addrs_eq, ← cons_append, getLast?_concat, hr.last]
  · rw [hr.last, hlast, hinv.last]
  · rw [hfree, hr.head]
    exact hr.holds.free
  · rw [hfree]
    exact hr.wf.free_nodup
  · intro c
    rw [hfree, hchunks, hr.wf.mem_free]
    constructor
    · rintro ⟨b, hb, rfl, hu⟩
      exact ⟨Arena.mem_addrs hb, (hr.holds.isUsed (Arena.mem_blocks hb)).trans hu⟩
    · rintro ⟨hc, hz⟩
      obtain ⟨b, hb, rfl⟩ := mem_map.mp hc
      rw [hr.holds.isUsed hb] at hz
      exact ⟨b, Arena.mem_mid_of_unused hb hz, rfl, hz⟩
  · intro x hx
    exact (hinv.owns hx).aligned hal
  · intro x hx
    obtain ⟨b, hb, hxb, hsz⟩ := hinv.live x hx
    have hbd := hr.wf.tiles.bounds.2 b (Arena.mem_inUse.mp hb).1
    have h1 := hinv.first
    have h2 := hinv.last
    omega
  · refine (pairwise_map.mp hinv.nodup).imp_of_mem fun {x y} hx hy hne => ?_
    exact (hinv.owns hx).disjoint (hinv.owns hy) hr.wf hne
  · intro x hx c hc
    rw [hchunks] at hc
    exact (hinv.owns hx).off_header hr.wf hc

end Invariant

/-! ## One step -/

section Steps

variable {lo hi : Nat} {r : HeapRun} {A : Arena}

/-- What is left of a count of free bytes `f` once `k` bytes are off it, given
that the blocks lost one header more or less. -/
theorem sub32_eq_iff {f f' k : Nat} {whole : Bool} (hf : f < 2 ^ 32) (hk : k < 2 ^ 32)
    (h : f + (if whole then CHUNK.sizeof else 0) = f' + k) :
    sub32 f k = f' ↔ whole = false := by
  have h32 : CHUNK.sizeof = 32 := rfl
  unfold sub32
  cases whole with
  | false =>
    simp only [Bool.false_eq_true, if_false] at h
    simp only [iff_true]
    omega
  | true =>
    simp only [if_true] at h
    simp only [Bool.true_eq_false, iff_false]
    omega

theorem Arena.WF.freeBytes_lt (hw : A.WF) : A.freeBytes < 2 ^ 32 := by
  have h1 := hw.freeBytes_le
  have h2 := hw.top
  omega

/-- Nothing has been handed out, or a block has been, which is now live. -/
inductive TakenAt (A A' : Arena) (s n : Nat) (r r' : HeapRun) : Prop
  | null (heq : A' = A) (hlive : r'.live = r.live)
  | block (e : Block) (ht : Took A A' s e) (hflags : TookFlags A.flags A'.flags)
      (hlive : r'.live = (e.addr + CHUNK.sizeof, n) :: r.live)

/-- An allocation of `s` bytes for a caller who asked for `n` of them. -/
theorem HeapInv.malloc_step (hinv : HeapInv lo hi r A) {n s : Nat} (hn : n ≤ s) :
    ∃ r' A', ((kHeapdlMmMalloc r.heap s).map fun (h, p) =>
        if p = 0 then { r with heap := h } else ⟨h, (p, n) :: r.live⟩) = some r' ∧
      HeapInv lo hi r' A' ∧
      (∀ a ∈ A'.addrs, a ∈ A.addrs ∨ ∃ e ∈ A.addrs, a = e + (CHUNK.sizeof + s)) ∧
      TakenAt A A' s n r r' ∧ r'.heap.memAll = r.heap.memAll ∧
      (r.heap.memFree = A.freeBytes →
        (r'.heap.memFree = A'.freeBytes ↔ takesWhole r.heap s = false)) := by
  rcases hinv.repr.malloc s with ⟨heq, htw⟩ | ⟨h', A', e, heq, hr', ht, hflags, hmf, hma, hbytes⟩
  · rw [heq]
    refine ⟨r, A, rfl, hinv, fun a ha => .inl ha, .null rfl rfl, rfl, fun hfb => ?_⟩
    simp [hfb, htw]
  · have hp : e.addr + CHUNK.sizeof ≠ 0 := by simp [CHUNK.sizeof]
    have he : e ∈ A'.mid := (Arena.mem_inUse.mp ((ht.inUse e).mpr (.inl rfl))).1
    have hend := hr'.wf.end_le he
    refine ⟨_, A', by simp only [heq, Option.map_some, if_neg hp], hinv.took ht hr' hn,
      fun a ha => ?_, .block e ht hflags rfl, hma, fun hfb => ?_⟩
    · refine (ht.addrs a ha).imp_right fun h => ⟨e.addr, ?_, h⟩
      exact hinv.repr.wf.free_subset ht.was_free
    · rw [hmf, hfb]
      exact sub32_eq_iff hinv.repr.wf.freeBytes_lt (by omega) hbytes

/-- The pointer is `NULL`, or that of a block that has been returned. -/
inductive ReleasedAt (A A' : Arena) (p : Nat) : Prop
  | null (hp : p = 0) (heq : A' = A)
  | block (pre post : List Block) (c : Block) (hp : p = c.addr + CHUNK.sizeof)
      (hmid : A.mid = pre ++ c :: post) (hu : c.used = true) (hfreed : Freed A A' c)
      (hflags : A'.flags = releasedFlags (pre.map Block.used) (post.map Block.used))

/-- A release of `NULL` or of a live block. -/
theorem HeapInv.free_step (hinv : HeapInv lo hi r A) {p : Nat}
    (hp : p = 0 ∨ p ∈ r.live.map Prod.fst) :
    ∃ A', HeapInv lo hi ⟨kHeapdlMmFree r.heap p, r.live.filter fun x => x.1 ≠ p⟩ A' ∧
      ReleasedAt A A' p ∧ (∀ a ∈ A'.addrs, a ∈ A.addrs) ∧
      (kHeapdlMmFree r.heap p).memAll = r.heap.memAll ∧
      (r.heap.memFree = A.freeBytes → (kHeapdlMmFree r.heap p).memFree = A'.freeBytes) := by
  rcases hp with rfl | hp
  · refine ⟨A, ⟨hinv.repr, hinv.first, hinv.last, fun x hx => ?_, ?_⟩, .null rfl rfl,
      fun a ha => ha, rfl, fun hfb => hfb⟩
    · exact hinv.live x (mem_of_mem_filter hx)
    · exact hinv.nodup.sublist (filter_sublist.map _)
  · obtain ⟨x, hx, rfl⟩ := mem_map.mp hp
    obtain ⟨b, hb, hxb, -⟩ := hinv.live x hx
    obtain ⟨hbm, hu⟩ := Arena.mem_inUse.mp hb
    obtain ⟨pre, post, hmid⟩ := append_of_mem hbm
    obtain ⟨A', hr', hf, hflags⟩ := hinv.repr.free hmid hu
    obtain ⟨d, hd, hmf⟩ := hf.bytes
    rw [hxb]
    refine ⟨A', hinv.freed hf.freed hr', .block pre post b rfl hmid hu hf.freed hflags,
      hf.freed.addrs, hf.memAll, fun hfb => ?_⟩
    rw [hmf, hfb, ← hd, u32_of_lt hr'.wf.freeBytes_lt]

end Steps

/-! ## Every history is sound -/

section Sound

variable (mem : Mem) {memStart memEnd : Nat} (hstart : memStart + osHeapBlockSize ≤ 2 ^ 32)
  (hend : memEnd < 2 ^ 32)
  (hroom : alignAddressToUpper memStart osHeapBlockSize + 3 * CHUNK.sizeof ≤
    alignAddressToLower memEnd osHeapBlockSize)

/-- The invariant of the histories of `kmalloc` and `kfree`: requests are whole
blocks, so all headers stay aligned. -/
def KHeapInv (lo hi : Nat) (r : HeapRun) : Prop :=
  ∃ A, HeapInv lo hi r A ∧ ∀ a ∈ A.addrs, osMemoryAlign ∣ a

include hstart hend hroom in
/-- The heap after `k_heapdl_mm_init`. -/
theorem KHeapInv.start :
    KHeapInv (alignAddressToUpper memStart osHeapBlockSize)
      (alignAddressToLower memEnd osHeapBlockSize) (heapStart mem memStart memEnd) := by
  refine ⟨_, HeapInv.start mem hend hroom, fun a ha => ?_⟩
  have hlo := (alignAddressToUpper_spec (show 0 < osHeapBlockSize by decide) hstart).2.2
  have hhi : osHeapBlockSize ∣ alignAddressToLower memEnd osHeapBlockSize :=
    (alignAddressToLower_spec (by decide)).2.2
  have hblock : osMemoryAlign ∣ osHeapBlockSize := by decide
  have hheader : osMemoryAlign ∣ CHUNK.sizeof := by decide
  rw [Arena.addrs_eq] at ha
  simp only [initArena, map_cons, map_nil, cons_append, nil_append,
    mem_cons, not_mem_nil, or_false] at ha
  rcases ha with rfl | rfl | rfl
  · exact hblock.trans hlo
  · exact Nat.dvd_add (hblock.trans hlo) hheader
  · exact Nat.dvd_sub (hblock.trans hhi) hheader

/-- A request or a release through `kmalloc` and `kfree`. -/
theorem KHeapInv.step {lo hi : Nat} {r : HeapRun} {op : HeapOp} (h : KHeapInv lo hi r)
    (hop : op.Legal (2 ^ 32 - osHeapBlockSize) r) :
    ∃ r', (heapMachine kmalloc kfree).step r op = some r' ∧ KHeapInv lo hi r' := by
  obtain ⟨A, hinv, hal⟩ := h
  cases op with
  | malloc n =>
    have hn : n ≤ 2 ^ 32 - osHeapBlockSize := hop
    have hblock : osHeapBlockSize ≤ 2 ^ 32 := by decide
    obtain ⟨hle, -, hdvd⟩ := alignAddressToUpper_spec (show 0 < osHeapBlockSize by decide)
      (show n + osHeapBlockSize ≤ 2 ^ 32 by omega)
    obtain ⟨r', A', hstep, hinv', haddrs, -⟩ := hinv.malloc_step hle
    refine ⟨r', hstep, A', hinv', fun a ha => ?_⟩
    rcases haddrs a ha with ha | ⟨e, he, rfl⟩
    · exact hal a ha
    · exact Nat.dvd_add (hal e he) (Nat.dvd_add (by decide) (Nat.dvd_trans (by decide) hdvd))
  | free p =>
    obtain ⟨A', hinv', -, haddrs, -⟩ := hinv.free_step hop
    exact ⟨_, rfl, A', hinv', fun a ha => hal a (haddrs a ha)⟩
  | store w v => exact ⟨_, rfl, A, hinv.stored hop, hal⟩

section

include hstart hend hroom

/-- **Every history of the heap is sound.** From `k_heapdl_mm_init` on a region
with room for the three headers, any history of `kmalloc` (of sizes whose
rounding does not wrap), `kfree` (of `NULL` or a live block) and payload writes
goes through, and leaves the region tiled, the free ring exact, and the live
payloads aligned, inside the region and disjoint from each other and from every
header. -/
theorem kmalloc_kfree_sound {ops : List HeapOp}
    (hlegal : (heapMachine kmalloc kfree).AllSteps
      (fun r op => op.Legal (2 ^ 32 - osHeapBlockSize) r) (heapStart mem memStart memEnd) ops) :
    ∃ r, (heapMachine kmalloc kfree).run (heapStart mem memStart memEnd) ops = some r ∧
      HeapSound (alignAddressToUpper memStart osHeapBlockSize)
        (alignAddressToLower memEnd osHeapBlockSize) r.heap r.live := by
  obtain ⟨r, hrun, A, hinv, hal⟩ := Machine.run_of_inv (fun _ _ h hop => KHeapInv.step h hop)
    (KHeapInv.start mem hstart hend hroom) hlegal
  exact ⟨r, hrun, hinv.sound hal⟩

end

/-- The theorem on a region of seven blocks: allocate, allocate, return the first. -/
theorem kmalloc_kfree_sound_seven_blocks :
    ∃ r, (heapMachine kmalloc kfree).run (heapStart (fun _ => 0) 0x1000 0x8000)
        [.malloc 100, .malloc 5000, .free 4160] = some r ∧
      HeapSound 0x1000 0x8000 r.heap r.live := by
  have hlive : ((heapMachine kmalloc kfree).run (heapStart (fun _ => 0) 0x1000 0x8000)
      [.malloc 100, .malloc 5000]).map (fun r => r.live.map Prod.fst) = some [8288, 4160] := by
    decide +kernel
  refine kmalloc_kfree_sound (fun _ => 0) (by decide) (by decide) (by decide)
    ⟨show 100 ≤ 2 ^ 32 - osHeapBlockSize by decide, fun r hr =>
      ⟨show 5000 ≤ 2 ^ 32 - osHeapBlockSize by decide, fun r' hr' =>
        ⟨.inr ?_, fun _ _ => trivial⟩⟩⟩
  have hrun : (heapMachine kmalloc kfree).run (heapStart (fun _ => 0) 0x1000 0x8000)
      [.malloc 100, .malloc 5000] = some r' := by
    rw [Machine.run_cons hr, Machine.run_cons hr', Machine.run_nil]
  rw [hrun, Option.map_some, Option.some.injEq] at hlive
  rw [hlive]
  decide

end Sound

/-! ## The counter of free bytes -/

section Counter

/-- The counter is the number of free bytes, and within `mem_all`. -/
def CounterExact (r : HeapRun) : Prop :=
  r.heap.memFree = r.heap.freeSum ∧ r.heap.memFree ≤ r.heap.memAll

/-- The allocation takes no chunk whole. -/
def HeapOp.Slices (r : HeapRun) : HeapOp → Prop
  | .malloc s => takesWhole r.heap s = false
  | _ => True

/-- The invariant of the histories along which the counter is exact. -/
def CounterInv (lo hi : Nat) (r : HeapRun) : Prop :=
  ∃ A, HeapInv lo hi r A ∧ r.heap.memFree = A.freeBytes ∧
    r.heap.memAll = A.last - (A.first + CHUNK.sizeof) - CHUNK.sizeof

variable {lo hi : Nat} {r : HeapRun} {op : HeapOp}

theorem CounterInv.exact (h : CounterInv lo hi r) : CounterExact r := by
  obtain ⟨A, hinv, hmf, hma⟩ := h
  have hle := hinv.repr.wf.freeBytes_le
  exact ⟨hmf.trans hinv.repr.freeSum_eq.symm, by omega⟩

/-- Two arenas of one region have the same room. -/
theorem HeapInv.room_eq {r' : HeapRun} {A A' : Arena} (h : HeapInv lo hi r A)
    (h' : HeapInv lo hi r' A') : A'.last - (A'.first + CHUNK.sizeof) - CHUNK.sizeof =
      A.last - (A.first + CHUNK.sizeof) - CHUNK.sizeof := by
  have h1 := h.first
  have h2 := h.last
  have h3 := h'.first
  have h4 := h'.last
  omega

theorem CounterInv.step (h : CounterInv lo hi r) (hop : op.Legal (2 ^ 32 - 1) r)
    (hok : op.Slices r) :
    ∃ r', (heapMachine kHeapdlMmMalloc kHeapdlMmFree).step r op = some r' ∧
      CounterInv lo hi r' := by
  obtain ⟨A, hinv, hmf, hma⟩ := h
  cases op with
  | malloc s =>
    obtain ⟨r', A', hstep, hinv', -, -, hma', hmf'⟩ := hinv.malloc_step (Nat.le_refl s)
    refine ⟨r', hstep, A', hinv', (hmf' hmf).mpr hok, ?_⟩
    rw [hma', hma, hinv.room_eq hinv']
  | free p =>
    obtain ⟨A', hinv', -, -, hma', hmf'⟩ := hinv.free_step hop
    refine ⟨_, rfl, A', hinv', hmf' hmf, ?_⟩
    rw [hinv.room_eq hinv']
    exact hma'.trans hma
  | store w v => exact ⟨_, rfl, A, hinv.stored hop, hmf, hma⟩

/-- An allocation that takes a chunk whole breaks the counter. -/
theorem CounterInv.break (h : CounterInv lo hi r) (hbad : ¬ op.Slices r) {r' : HeapRun}
    (hstep : (heapMachine kHeapdlMmMalloc kHeapdlMmFree).step r op = some r') :
    ¬ CounterExact r' := by
  obtain ⟨A, hinv, hmf, -⟩ := h
  cases op with
  | malloc s =>
    obtain ⟨r'', A', hstep', hinv', -, -, -, hmf'⟩ := hinv.malloc_step (Nat.le_refl s)
    cases hstep.symm.trans hstep'
    intro hexact
    exact hbad ((hmf' hmf).mp (hexact.1.trans hinv'.repr.freeSum_eq))
  | free p => exact absurd trivial hbad
  | store w v => exact absurd trivial hbad

/-- **The counter is exact along a history iff no allocation of it takes a
chunk whole.** -/
theorem memFree_exact_iff (mem : Mem) {memStart memEnd : Nat} (hend : memEnd < 2 ^ 32)
    (hroom : alignAddressToUpper memStart osHeapBlockSize + 3 * CHUNK.sizeof ≤
      alignAddressToLower memEnd osHeapBlockSize) {ops : List HeapOp}
    (hlegal : (heapMachine kHeapdlMmMalloc kHeapdlMmFree).AllSteps
      (fun r op => op.Legal (2 ^ 32 - 1) r) (heapStart mem memStart memEnd) ops) :
    (heapMachine kHeapdlMmMalloc kHeapdlMmFree).AllStates CounterExact
        (heapStart mem memStart memEnd) ops ↔
      (heapMachine kHeapdlMmMalloc kHeapdlMmFree).AllSteps (fun r op => op.Slices r)
        (heapStart mem memStart memEnd) ops := by
  have hstart := HeapInv.start mem hend hroom
  obtain ⟨-, hmf, hma⟩ := kHeapdlMmInit_repr mem hend hroom
  refine Machine.always_iff (fun _ h => CounterInv.exact h) ?_ ?_
    ⟨_, hstart, hmf, hma.trans (hmf.trans rfl)⟩ hlegal
  · intro r op h hop hok
    obtain ⟨r', hstep, h'⟩ := CounterInv.step h hop hok
    exact ⟨r', hstep, trivial, h'⟩
  · intro r op r' h _ hbad hstep _
    exact CounterInv.break h hbad hstep

/-- On a region of seven blocks a request for one block is sliced off, and the
counter stays exact. -/
theorem memFree_exact_one_block :
    (heapMachine kHeapdlMmMalloc kHeapdlMmFree).AllStates CounterExact
      (heapStart (fun _ => 0) 0x1000 0x8000) [.malloc 4096] := by
  have hlegal : (heapMachine kHeapdlMmMalloc kHeapdlMmFree).AllSteps
      (fun r op => op.Legal (2 ^ 32 - 1) r) (heapStart (fun _ => 0) 0x1000 0x8000)
      [.malloc 4096] := ⟨show 4096 ≤ 2 ^ 32 - 1 by decide, fun _ _ => trivial⟩
  refine (memFree_exact_iff (fun _ => 0) (by decide) (by decide) hlegal).mpr
    ⟨?_, fun _ _ => trivial⟩
  show takesWhole (kHeapdlMmInit (fun _ => 0) 0x1000 0x8000) 4096 = false
  decide +kernel

/-- On the same region a request for six blocks takes the one free chunk whole.
Nothing is free afterwards, but the counter has wrapped below zero. -/
theorem memFree_wraps_six_blocks :
    ((heapMachine kHeapdlMmMalloc kHeapdlMmFree).run (heapStart (fun _ => 0) 0x1000 0x8000)
      [.malloc 0x6000]).map (fun r => (r.heap.freeSum, r.heap.memFree, r.heap.memAll)) =
        some (0, 2 ^ 32 - 32, 28576) := by
  decide +kernel

end Counter

end UnagiOs
