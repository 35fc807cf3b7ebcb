import Mathlib.Data.List.Find
import UnagiOs.Memory.HeapdlCoalesce

/-!
# What a request gets

`k_heapdl_mm_malloc` is a first-fit search over the free ring behind a look at the counter
`mem_free`; `kmalloc` rounds the request up to whole blocks first.

- `firstFit_iff`: the answer is that of the plain search exactly if the counter covers the
  request whenever a chunk does. The counter drifts (`memFree_exact_iff`), so it may not.
- `kmalloc_covers_iff`: what `kmalloc` and `kzalloc` return has room for the request exactly
  for the sizes whose rounding does not wrap.
-/

namespace UnagiOs

open Links

/-! ## Every history holds an arena -/

theorem HeapInv.step {lo hi : Nat} {r : HeapRun} {A : Arena} {op : HeapOp}
    (hinv : HeapInv lo hi r A) (hop : op.Legal (2 ^ 32 - 1) r) :
    ∃ r', (heapMachine kHeapdlMmMalloc kHeapdlMmFree).step r op = some r' ∧
      ∃ A', HeapInv lo hi r' A' := by
  cases op with
  | malloc s =>
    obtain ⟨r', A', hstep, hinv', -⟩ := hinv.malloc_step (Nat.le_refl s)
    exact ⟨r', hstep, A', hinv'⟩
  | free p =>
    obtain ⟨A', hinv', -⟩ := hinv.free_step hop
    exact ⟨_, rfl, A', hinv'⟩
  | store w v => exact ⟨_, rfl, A, hinv.stored hop⟩

section History

variable (mem : Mem) {memStart memEnd : Nat} (hend : memEnd < 2 ^ 32)
  (hroom : alignAddressToUpper memStart osHeapBlockSize + 3 * CHUNK.sizeof ≤
    alignAddressToLower memEnd osHeapBlockSize) {ops : List HeapOp}
  (hlegal : (heapMachine kHeapdlMmMalloc kHeapdlMmFree).AllSteps
    (fun r op => op.Legal (2 ^ 32 - 1) r) (heapStart mem memStart memEnd) ops)

section

include hend hroom hlegal

/-- What holds of every heap that holds an arena holds along every history. -/
theorem heap_allStates {P : HeapRun → Prop} (hP : ∀ r A, HeapRepr r.heap A → P r) :
    (heapMachine kHeapdlMmMalloc kHeapdlMmFree).AllStates P (heapStart mem memStart memEnd)
      ops := by
  refine Machine.always_of_inv (fun r (hr : ∃ A, HeapInv _ _ r A) => ?_) ?_
    ⟨_, HeapInv.start mem hend hroom⟩ hlegal
  · obtain ⟨A, hinv⟩ := hr
    exact hP r A hinv.repr
  · rintro r op ⟨A, hinv⟩ hop
    obtain ⟨r', hstep, hinv'⟩ := hinv.step hop
    exact ⟨r', hstep, trivial, hinv'⟩

end

/-! ## The first-fit search -/

/-- The first chunk on the free ring with `s` usable bytes. -/
def Heapdl.firstFit (h : Heapdl) (s : Nat) : Option Nat :=
  h.freeChunks.find? fun c => decide (s ≤ chunkCalcActualFree h c)

/-- `k_heapdl_mm_malloc` answers as the plain search does: `NULL` and no change if there is no
chunk for the request, and otherwise the payload of the first one. -/
structure FirstFit (h : Heapdl) (s : Nat) : Prop where
  null_iff : kHeapdlMmMalloc h s = some (h, 0) ↔ h.firstFit s = none
  first : ∀ c, h.firstFit s = some c → ∃ h', kHeapdlMmMalloc h s = some (h', chunkCalcFreeOffset c)

section FirstFit

variable {h : Heapdl} {A : Arena} {s c : Nat} {h' : Heapdl} {a : Nat}

/-- The test in the loop is about usable bytes: the size is compared first, and is more. -/
theorem HeapRepr.chunkFits_eq (hr : HeapRepr h A) (hc : c ∈ A.free) :
    chunkFits h s (c + CHUNK.free) = decide (s ≤ chunkCalcActualFree h c) := by
  obtain ⟨b, hb, rfl, -⟩ := hr.wf.mem_free.mp hc
  have hsize := hr.holds.size b (Arena.mem_blocks hb)
  have hactual := hr.actualFree hb
  rw [chunkFits, Nat.add_sub_cancel, hsize, hactual, ← Bool.decide_and]
  exact decide_eq_decide.mpr ⟨fun hle => hle.2, fun hle => ⟨by omega, hle⟩⟩

/-- The loop is the plain search. -/
theorem HeapRepr.walk_firstFit (hr : HeapRepr h A) :
    (A.free.map (· + CHUNK.free)).find? (chunkFits h s) =
      (h.firstFit s).map (· + CHUNK.free) := by
  rw [List.find?_map, Heapdl.firstFit, hr.freeChunks_eq]
  exact congrArg (Option.map _) (List.find?_congr fun c hc => hr.chunkFits_eq hc)

theorem HeapRepr.mem_free_of_firstFit (hr : HeapRepr h A) (hc : h.firstFit s = some c) :
    c ∈ A.free := by
  rw [← hr.freeChunks_eq]
  exact List.mem_of_find?_eq_some hc

/-- A counter that does not cover the request is an early exit. -/
theorem kHeapdlMmMalloc_guard (hguard : ¬ (s ≤ h.memFree ∧ h.memFree ≠ 0)) :
    kHeapdlMmMalloc h s = some (h, 0) := by
  unfold kHeapdlMmMalloc
  exact if_pos (by omega)

/-- What hands out a chunk has passed the look at the counter. -/
theorem memFree_of_malloc (heq : kHeapdlMmMalloc h s = some (h', a + CHUNK.sizeof)) :
    s ≤ h.memFree ∧ h.memFree ≠ 0 := by
  by_contra hguard
  rw [kHeapdlMmMalloc_guard hguard, Option.some.injEq, Prod.mk.injEq] at heq
  exact absurd heq.2.symm (Nat.succ_ne_zero _)

theorem HeapRepr.malloc_none (hr : HeapRepr h A) (hnone : h.firstFit s = none) :
    kHeapdlMmMalloc h s = some (h, 0) := by
  simp only [kHeapdlMmMalloc, hr.walk, hr.walk_firstFit, hnone, Option.map_none]
  exact ite_self _

/-- The first chunk that fits is taken, whole or sliced. -/
theorem HeapRepr.malloc_some (hr : HeapRepr h A) (hc : h.firstFit s = some c)
    (hguard : s ≤ h.memFree ∧ h.memFree ≠ 0) :
    kHeapdlMmMalloc h s = some (if chunkCalcActualFree h c - s < osHeapBlockSize
      then chunkEngage h c else chunkEngage (chunkSlice h c s) c, chunkCalcFreeOffset c) := by
  -- the free ring is not empty, since `c` is on it
  have hne : Mem.links.next h.mem (h.freeChunkHead + CHUNK.free) ≠
      h.freeChunkHead + CHUNK.free := by
    have hmem := hr.mem_free_of_firstFit hc
    have hring := hr.holds.free
    have hnd := hr.wf.free_ring_nodup
    cases hfree : A.free with
    | nil =>
      rw [hfree] at hmem
      cases hmem
    | cons a l =>
      rw [hfree] at hring hnd
      rw [hr.head, Ring.next_head hring]
      intro heq
      rw [Nat.add_right_cancel heq] at hnd
      exact (List.nodup_cons.mp hnd).1 List.mem_cons_self
  have henter : ¬ (s > h.memFree ∨ h.memFree = 0 ∨
      Mem.links.next h.mem (h.freeChunkHead + CHUNK.free) = h.freeChunkHead + CHUNK.free) := by
    rintro (hlt | hzero | hempty)
    · exact absurd hguard.1 (Nat.not_le_of_lt hlt)
    · exact hguard.2 hzero
    · exact hne hempty
  unfold kHeapdlMmMalloc
  rw [if_neg henter, hr.walk, hr.walk_firstFit, hc]
  simp only [Option.map_some, Nat.add_sub_cancel]
  split
  · rfl
  · rfl

/-- The chunk that a request hands out is the first that fits. -/
theorem HeapRepr.firstFit_of_malloc (hr : HeapRepr h A)
    (heq : kHeapdlMmMalloc h s = some (h', a + CHUNK.sizeof)) : h.firstFit s = some a := by
  have hne : ∀ {h₁ : Heapdl}, kHeapdlMmMalloc h s ≠ some (h₁, 0) := by
    intro h₁ hnull
    rw [heq, Option.some.injEq, Prod.mk.injEq] at hnull
    exact absurd hnull.2 (Nat.succ_ne_zero _)
  cases hc : h.firstFit s with
  | none => exact absurd (hr.malloc_none hc) hne
  | some c =>
    by_cases hguard : s ≤ h.memFree ∧ h.memFree ≠ 0
    · have heq₁ := hr.malloc_some hc hguard
      obtain ⟨b, hb, rfl, -⟩ := hr.wf.mem_free.mp (hr.mem_free_of_firstFit hc)
      rw [heq, Option.some.injEq, Prod.mk.injEq, hr.freeOffset hb] at heq₁
      rw [Nat.add_right_cancel heq₁.2]
    · exact absurd (kHeapdlMmMalloc_guard hguard) hne

/-- The answer is that of the plain search exactly if the counter lets the search begin. -/
theorem HeapRepr.answers_first_iff (hr : HeapRepr h A) (s : Nat) :
    FirstFit h s ↔ (h.firstFit s ≠ none → s ≤ h.memFree ∧ h.memFree ≠ 0) := by
  constructor
  · intro hfit hsome
    by_contra hguard
    exact hsome (hfit.null_iff.mp (kHeapdlMmMalloc_guard hguard))
  · intro hguard
    cases hc : h.firstFit s with
    | none => exact ⟨iff_of_true (hr.malloc_none hc) hc, fun c hc' => by cases hc.symm.trans hc'⟩
    | some c =>
      have hmalloc := hr.malloc_some hc (hguard (by rw [hc]; exact Option.some_ne_none c))
      refine ⟨iff_of_false (fun hnull => ?_) (by rw [hc]; exact Option.some_ne_none c), ?_⟩
      · -- a payload does not start at address 0
        obtain ⟨b, hb, rfl, -⟩ := hr.wf.mem_free.mp (hr.mem_free_of_firstFit hc)
        rw [hmalloc, Option.some.injEq, Prod.mk.injEq, hr.freeOffset hb] at hnull
        exact absurd hnull.2 (Nat.succ_ne_zero _)
      · intro c' hc'
        cases hc.symm.trans hc'
        exact ⟨_, hmalloc⟩

end FirstFit

section

include hend hroom hlegal

/-- **When the search is first fit**: in every state of every history, and for every request,
`k_heapdl_mm_malloc` answers as the plain search over the free ring exactly if `mem_free` covers
the request in case some chunk does. -/
theorem firstFit_iff :
    (heapMachine kHeapdlMmMalloc kHeapdlMmFree).AllStates
      (fun r => ∀ s, FirstFit r.heap s ↔
        (r.heap.firstFit s ≠ none → s ≤ r.heap.memFree ∧ r.heap.memFree ≠ 0))
      (heapStart mem memStart memEnd) ops :=
  heap_allStates mem hend hroom hlegal fun _ _ hr s => hr.answers_first_iff s

end

theorem firstFit_iff_seven_blocks :
    (heapMachine kHeapdlMmMalloc kHeapdlMmFree).AllStates
      (fun r => ∀ s, FirstFit r.heap s ↔
        (r.heap.firstFit s ≠ none → s ≤ r.heap.memFree ∧ r.heap.memFree ≠ 0))
      (heapStart (fun _ => 0) 0x1000 0x8000) [.malloc 4096, .malloc 100, .free 4160] :=
  firstFit_iff (fun _ => 0) (by decide) (by decide) (by decide +kernel)

/-- On a region of seven blocks the one free chunk is taken whole and returned. It still has
28576 usable bytes, but the counter has lost the header, and a second request for them fails. -/
theorem firstFit_missed :
    (heapMachine kHeapdlMmMalloc kHeapdlMmFree).AllSteps (fun r op => op.Legal (2 ^ 32 - 1) r)
        (heapStart (fun _ => 0) 0x1000 0x8000) [.malloc 28576, .free 4160] ∧
      ∃ r, (heapMachine kHeapdlMmMalloc kHeapdlMmFree).run (heapStart (fun _ => 0) 0x1000 0x8000)
          [.malloc 28576, .free 4160] = some r ∧
        r.heap.firstFit 28576 = some 4128 ∧
        (kHeapdlMmMalloc r.heap 28576).map Prod.snd = some 0 :=
  ⟨by decide +kernel, Machine.exists_run_of_any (by decide +kernel)⟩

/-! ## kmalloc and kzalloc -/

/-- `kmemset(ptr, 0, size)`: whole words, then the low bytes of one more. -/
def kmemsetZeroBytes (m : Mem) (ptr size : Nat) : Mem :=
  let words := size / 4
  let m := kmemsetZero m ptr words
  let rest := 2 ^ (8 * (size % 4))
  if size % 4 = 0 then m
  else m.write (ptr + 4 * words) (m (ptr + 4 * words) / rest * rest)

def kzalloc (h : Heapdl) (size : Nat) : Option (Heapdl × Nat) :=
  (kmalloc h size).map fun r =>
    let ptr := r.2
    if ptr = 0 then (r.1, 0) else (r.1.onMem fun m => kmemsetZeroBytes m ptr size, ptr)

theorem kmemsetZeroBytes_off (m : Mem) {ptr size w : Nat} (hw : w < ptr ∨ ptr + size ≤ w) :
    kmemsetZeroBytes m ptr size w = m w := by
  have hzero : kmemsetZero m ptr (size / 4) w = m w := kmemsetZero_off m (by omega)
  simp only [kmemsetZeroBytes]
  split
  · exact hzero
  · rw [Mem.write_other _ _ (by omega)]
    exact hzero

/-- The usable bytes of the chunk that owns a payload. -/
def usableBytes (h : Heapdl) (ptr : Nat) : Nat := chunkCalcActualFree h (chunkCalcChunkByPtr ptr)

/-- A pointer that is returned for `size` bytes has them, and rounding does not lose any. -/
structure Covers (h : Heapdl) (size : Nat) : Prop where
  kmalloc : ∀ h' p, kmalloc h size = some (h', p) → p ≠ 0 → size ≤ usableBytes h' p
  kzalloc : ∀ h' p, kzalloc h size = some (h', p) → p ≠ 0 → size ≤ usableBytes h' p
  rounded : size ≤ alignAddressToUpper size osHeapBlockSize

section Covers

variable {h h' : Heapdl} {A A' : Arena} {s size p : Nat}

theorem HeapRepr.usableBytes_eq (hr : HeapRepr h A) {b : Block} (hb : b ∈ A.mid) :
    usableBytes h (b.addr + CHUNK.sizeof) = b.size - CHUNK.sizeof := by
  have hend := hr.wf.end_le hb
  rw [usableBytes, chunkCalcChunkByPtr_add (by omega), hr.actualFree hb]

/-- What `k_heapdl_mm_malloc` returns has room for what it was asked for. -/
theorem HeapRepr.malloc_covers (hr : HeapRepr h A) (heq : kHeapdlMmMalloc h s = some (h', p))
    (hp : p ≠ 0) : s ≤ usableBytes h' p ∧ CHUNK.sizeof ≤ p ∧ p < 2 ^ 32 := by
  rcases hr.malloc s with ⟨hnull, -⟩ | ⟨h₁, A₁, e, heq₁, hr₁, ht, -⟩
  · rw [hnull, Option.some.injEq, Prod.mk.injEq] at heq
    exact absurd heq.2.symm hp
  · cases heq₁.symm.trans heq
    have he : e ∈ A₁.mid := (Arena.mem_inUse.mp ((ht.inUse e).mpr (.inl rfl))).1
    have hroom := ht.room
    have hend := hr₁.wf.end_le he
    rw [hr₁.usableBytes_eq he]
    exact ⟨by omega, Nat.le_add_left _ _, by omega⟩

/-- Clearing a payload leaves its header alone. -/
theorem usableBytes_kmemset (hp : CHUNK.sizeof ≤ p) (hp' : p < 2 ^ 32) :
    usableBytes (h.onMem fun m => kmemsetZeroBytes m p size) p = usableBytes h p := by
  have hchunk : chunkCalcChunkByPtr p = p - CHUNK.sizeof := by
    rw [chunkCalcChunkByPtr, alignedHeader_eq, sub32_of_le hp hp']
  simp only [usableBytes, chunkCalcActualFree, Heapdl.onMem, hchunk]
  rw [kmemsetZeroBytes_off]
  simp only [CHUNK.sizeof, CHUNK.size] at hp ⊢
  omega

/-- Near the top of the address space rounding up wraps to 0. -/
theorem alignAddressToUpper_wraps (hsize : 2 ^ 32 - osHeapBlockSize < size)
    (hlt : size < 2 ^ 32) : alignAddressToUpper size osHeapBlockSize = 0 := by
  simp only [osHeapBlockSize] at hsize
  rw [alignAddressToUpper, osHeapBlockSize, if_neg (by omega), u32]
  omega

/-- Only sizes that wrap when they are rounded are not covered. -/
theorem HeapRepr.covers_iff (hr : HeapRepr h A) (hsize : size < 2 ^ 32) :
    Covers h size ↔ size ≤ 2 ^ 32 - osHeapBlockSize := by
  constructor
  · intro hcovers
    by_contra hgt
    have hrounded := hcovers.rounded
    rw [alignAddressToUpper_wraps (Nat.lt_of_not_le hgt) hsize] at hrounded
    simp only [osHeapBlockSize] at hgt
    omega
  · intro hle
    have hblock : osHeapBlockSize ≤ 2 ^ 32 := by decide
    have hrounded := (alignAddressToUpper_spec (show 0 < osHeapBlockSize by decide)
      (show size + osHeapBlockSize ≤ 2 ^ 32 by omega)).1
    refine ⟨fun h' p heq hp => ?_, fun h' p heq hp => ?_, hrounded⟩
    · exact Nat.le_trans hrounded (hr.malloc_covers heq hp).1
    · obtain ⟨⟨h₁, p₁⟩, heq₁, hz⟩ := Option.map_eq_some_iff.mp heq
      dsimp only at hz
      by_cases hp₁ : p₁ = 0
      · rw [if_pos hp₁, Prod.mk.injEq] at hz
        exact absurd hz.2.symm hp
      · rw [if_neg hp₁, Prod.mk.injEq] at hz
        obtain ⟨rfl, rfl⟩ := hz
        obtain ⟨hroom, hge, hlt⟩ := hr.malloc_covers heq₁ hp₁
        rw [usableBytes_kmemset hge hlt]
        exact Nat.le_trans hrounded hroom

end Covers

section

include hend hroom hlegal

/-- **When a request is covered**: in every state of every history a pointer that `kmalloc` or
`kzalloc` returns for a 32-bit size has so many usable bytes, and rounding makes no request
smaller, exactly for the sizes up to the last whole block. -/
theorem kmalloc_covers_iff :
    (heapMachine kHeapdlMmMalloc kHeapdlMmFree).AllStates
      (fun r => ∀ size < 2 ^ 32, Covers r.heap size ↔ size ≤ 2 ^ 32 - osHeapBlockSize)
      (heapStart mem memStart memEnd) ops :=
  heap_allStates mem hend hroom hlegal fun _ _ hr _ hsize => hr.covers_iff hsize

end

theorem kmalloc_covers_iff_seven_blocks :
    (heapMachine kHeapdlMmMalloc kHeapdlMmFree).AllStates
      (fun r => ∀ size < 2 ^ 32, Covers r.heap size ↔ size ≤ 2 ^ 32 - osHeapBlockSize)
      (heapStart (fun _ => 0) 0x1000 0x8000) [.malloc 4096] :=
  kmalloc_covers_iff (fun _ => 0) (by decide) (by decide) (by decide +kernel)

/-- On a new heap a request for all but one byte of the address space is rounded to 0, and gets
a chunk without a usable byte. -/
theorem kmalloc_short :
    (kmalloc (kHeapdlMmInit (fun _ => 0) 0x1000 0x8000) (2 ^ 32 - 1)).map
        (fun r => (r.2, usableBytes r.1 r.2)) = some (4160, 0) := by
  decide +kernel

end History

end UnagiOs
