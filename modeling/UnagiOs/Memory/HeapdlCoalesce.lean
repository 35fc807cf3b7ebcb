import UnagiOs.Memory.HeapdlRun

/-!
# Coalescing

`chunk_free` merges the chunk it returns with the chunk before it if that one is
free, or else with the chunk after it. It never merges with both. So two free
chunks come to lie side by side exactly when a chunk between two free ones is
returned (`coalesced_iff`); until then returning everything leaves one free chunk.
-/

namespace UnagiOs

open List

/-! ## Rows of used and free blocks -/

/-- No two neighbours are both free. -/
def Spaced (l : List Bool) : Prop := l.IsChain fun a b => (a || b) = true

variable {pre post l l' : List Bool}

theorem spaced_append (pre post : List Bool) :
    Spaced (pre ++ post) ↔ Spaced pre ∧ Spaced post ∧
      (pre.getLast?.getD true || post.head?.getD true) = true := by
  have hseam : (∀ a ∈ pre.getLast?, ∀ b ∈ post.head?, (a || b) = true) ↔
      (pre.getLast?.getD true || post.head?.getD true) = true := by
    cases pre.getLast? <;> cases post.head? <;> simp
  rw [Spaced, isChain_append, hseam]
  rfl

theorem spaced_true_cons : Spaced (true :: l) ↔ Spaced l := by
  refine (spaced_append [true] l).trans ?_
  simp [Spaced]

theorem spaced_append_true : Spaced (l ++ [true]) ↔ Spaced l := by
  rw [spaced_append]
  simp [Spaced]

/-- Taking a block keeps the free ones apart. -/
theorem TookFlags.spaced (h : TookFlags l l') (hl : Spaced l) : Spaced l' := by
  cases h with
  | whole pre post =>
    obtain ⟨hpre, hpost, -⟩ := (spaced_append _ _).mp hl
    have hpost' := (spaced_append [false] post).mp hpost
    exact (spaced_append _ _).mpr ⟨hpre, spaced_true_cons.mpr hpost'.2.1, by simp⟩
  | slice pre post =>
    obtain ⟨hpre, hpost, -⟩ := (spaced_append _ _).mp hl
    exact (spaced_append _ _).mpr ⟨hpre, spaced_true_cons.mpr hpost, by simp⟩

/-- Returning a block keeps them apart unless both its neighbours are free. -/
theorem spaced_released (h : Spaced (pre ++ true :: post)) :
    Spaced (releasedFlags pre post) ↔
      (pre.getLast?.getD true || post.head?.getD true) = true := by
  obtain ⟨hpre, hpost, -⟩ := (spaced_append _ _).mp h
  rw [spaced_true_cons] at hpost
  unfold releasedFlags
  split
  next hboth =>
    rw [Bool.and_eq_true] at hboth
    have hcons : Spaced (false :: post) := by
      refine (spaced_append [false] post).mpr ⟨isChain_singleton _, hpost, ?_⟩
      simpa using hboth.2
    simp [spaced_append, hpre, hcons, hboth.1]
  next => simp [spaced_append, hpre, hpost]

/-! ## The chunks of the heap -/

/-- The chunk is not in use. -/
def Heapdl.IsFree (h : Heapdl) (chunk : Nat) : Prop := h.mem.isUsed chunk = false

instance Heapdl.decidableIsFree (h : Heapdl) (chunk : Nat) : Decidable (h.IsFree chunk) :=
  inferInstanceAs (Decidable (_ = false))

/-- The chunk before it on the `all` ring. -/
def Heapdl.prevChunk (h : Heapdl) (chunk : Nat) : Nat :=
  Mem.links.prev h.mem (chunk + CHUNK.all) - CHUNK.all

/-- The chunk after it on the `all` ring. -/
def Heapdl.nextChunk (h : Heapdl) (chunk : Nat) : Nat :=
  Mem.links.next h.mem (chunk + CHUNK.all) - CHUNK.all

/-- **No two neighbouring chunks are both free**, and once nothing is live there is one
free chunk between `first` and `last`. -/
structure Coalesced (r : HeapRun) : Prop where
  apart : r.heap.chunks.IsChain fun c c' => ¬ (r.heap.IsFree c ∧ r.heap.IsFree c')
  single : r.live = [] →
    ∃ c, r.heap.chunks = [r.heap.first, c, r.heap.last] ∧ r.heap.IsFree c

/-- The block to return does not lie between two free chunks. -/
def HeapOp.Coalesces (r : HeapRun) : HeapOp → Prop
  | .free p => p = 0 ∨ ¬ (r.heap.IsFree (r.heap.prevChunk (chunkCalcChunkByPtr p)) ∧
      r.heap.IsFree (r.heap.nextChunk (chunkCalcChunkByPtr p)))
  | _ => True

instance HeapOp.decidableLegal (maxSize : Nat) (r : HeapRun) :
    ∀ op : HeapOp, Decidable (op.Legal maxSize r)
  | .malloc s => inferInstanceAs (Decidable (s ≤ maxSize))
  | .free p => inferInstanceAs (Decidable (p = 0 ∨ p ∈ r.live.map Prod.fst))
  | .store w _ => inferInstanceAs (Decidable (∃ x ∈ r.live, x.1 ≤ w ∧ w + 4 ≤ x.1 + x.2))

instance HeapOp.decidableCoalesces (r : HeapRun) : ∀ op : HeapOp, Decidable (op.Coalesces r)
  | .free _ => inferInstanceAs (Decidable (_ ∨ ¬ (_ ∧ _)))
  | .malloc _ | .store _ _ => .isTrue trivial

section Reading

variable {h : Heapdl} {A : Arena} {pre post : List Block} {c : Block}

theorem HeapRepr.isFree_iff (hr : HeapRepr h A) (hc : c ∈ A.blocks) :
    h.IsFree c.addr ↔ c.used = false := by
  rw [Heapdl.IsFree, hr.holds.isUsed hc]

/-- Free chunks are apart iff the blocks say so; the sentinels are in use. -/
theorem HeapRepr.apart_iff (hr : HeapRepr h A) :
    (h.chunks.IsChain fun c c' => ¬ (h.IsFree c ∧ h.IsFree c')) ↔ Spaced A.flags := by
  have hflags : A.blocks.map Block.used = true :: (A.flags ++ [true]) := by
    simp [Arena.blocks, Arena.flags]
  rw [hr.chunks_eq, Arena.addrs, isChain_map, ← spaced_append_true, ← spaced_true_cons,
    ← hflags, Spaced, isChain_map]
  refine IsChain.iff_of_mem_imp fun b b' hb hb' => ?_
  rw [hr.isFree_iff hb, hr.isFree_iff hb']
  cases b.used <;> cases b'.used <;> simp

/-- The neighbours of a chunk, and whether they are in use. -/
theorem HeapRepr.neighbours (hr : HeapRepr h A) (hmid : A.mid = pre ++ c :: post) :
    (h.IsFree (h.prevChunk c.addr) ↔ (pre.map Block.used).getLast?.getD true = false) ∧
      (h.IsFree (h.nextChunk c.addr) ↔ (post.map Block.used).head?.getD true = false) := by
  obtain ⟨b, hb, hprev, -, hflag, -⟩ := hr.holds.prev_block hr.wf hmid
  obtain ⟨b', hb', hnext, -, hflag', -⟩ := hr.holds.next_block hr.wf hmid
  rw [Heapdl.prevChunk, Heapdl.nextChunk, hprev, hnext, Nat.add_sub_cancel, Nat.add_sub_cancel,
    hr.isFree_iff hb, hr.isFree_iff hb', hflag, hflag']
  exact ⟨Iff.rfl, Iff.rfl⟩

/-- One free block between the sentinels. -/
theorem HeapRepr.single (hr : HeapRepr h A) (hs : Spaced A.flags) (hnone : A.inUse = [])
    (hroom : A.first + CHUNK.sizeof < A.last) :
    ∃ c, h.chunks = [h.first, c, h.last] ∧ h.IsFree c := by
  have hfree : ∀ b ∈ A.mid, b.used = false := by
    intro b hb
    by_contra hu
    have hmem : b ∈ A.inUse := Arena.mem_inUse.mpr ⟨hb, by simpa using hu⟩
    rw [hnone] at hmem
    cases hmem
  have htiles := hr.wf.tiles
  rcases hmid : A.mid with _ | ⟨b, _ | ⟨b', rest⟩⟩
  · rw [hmid] at htiles
    exact absurd htiles (Nat.ne_of_lt hroom)
  · have hb : b ∈ A.mid := by rw [hmid]; exact mem_cons_self
    refine ⟨b.addr, ?_, (hr.isFree_iff (Arena.mem_blocks hb)).mpr (hfree b hb)⟩
    rw [hr.chunks_eq, Arena.addrs_eq, hmid, hr.first, hr.last]
    rfl
  · -- two blocks, both free, side by side
    have hb := hfree b (by rw [hmid]; simp)
    have hb' := hfree b' (by rw [hmid]; simp)
    rw [Arena.flags, hmid, map_cons, map_cons, hb, hb'] at hs
    have hseam := ((spaced_append [false] _).mp hs).2.2
    simp at hseam

end Reading

/-! ## Histories -/

/-- The invariant of the histories that keep free chunks apart: every block in use is
live. -/
structure CoalesceInv (lo hi : Nat) (r : HeapRun) (A : Arena) : Prop where
  heap : HeapInv lo hi r A
  spaced : Spaced A.flags
  allLive : ∀ b ∈ A.inUse, b.addr + CHUNK.sizeof ∈ r.live.map Prod.fst

variable {lo hi : Nat} {r r' : HeapRun} {A A' : Arena} {op : HeapOp}

section Steps

variable (hinv : CoalesceInv lo hi r A)
include hinv

theorem CoalesceInv.coalesced (hroom : lo + 3 * CHUNK.sizeof ≤ hi) : Coalesced r := by
  refine ⟨hinv.heap.repr.apart_iff.mpr hinv.spaced, fun hlive => ?_⟩
  have hnone : A.inUse = [] := by
    refine eq_nil_iff_forall_not_mem.mpr fun b hb => ?_
    have hmem := hinv.allLive b hb
    rw [hlive] at hmem
    cases hmem
  have hfirst := hinv.heap.first
  have hlast := hinv.heap.last
  have hsize : CHUNK.sizeof = 32 := rfl
  exact hinv.heap.repr.single hinv.spaced hnone (by omega)

/-- A block that is returned is the only one that leaves the blocks in use. -/
theorem CoalesceInv.freed {p : Nat} (hrel : ReleasedAt A A' p) :
    ∀ b ∈ A'.inUse, b.addr + CHUNK.sizeof ∈ (r.live.filter fun x => x.1 ≠ p).map Prod.fst := by
  have hkeep : ∀ q, q ∈ r.live.map Prod.fst → q ≠ p →
      q ∈ (r.live.filter fun x => x.1 ≠ p).map Prod.fst := by
    intro q hq hne
    obtain ⟨x, hx, rfl⟩ := mem_map.mp hq
    exact mem_map_of_mem (mem_filter.mpr ⟨hx, by simpa using hne⟩)
  intro b hb
  cases hrel with
  | null hp heq =>
    subst heq
    refine hkeep _ (hinv.allLive b hb) ?_
    have hsize : CHUNK.sizeof = 32 := rfl
    omega
  | block pre post c hp hmid hu hfreed hflags =>
    obtain ⟨hb, hne⟩ := (hfreed.inUse b).mp hb
    refine hkeep _ (hinv.allLive b hb) fun heq => hne ?_
    have hc := Arena.mem_mid hmid
    exact hinv.heap.repr.wf.eq_of_addr (Arena.mem_inUse.mp hb).1 hc (by omega)

theorem CoalesceInv.malloc {s n : Nat} (hheap : HeapInv lo hi r' A') (ht : TakenAt A A' s n r r') :
    CoalesceInv lo hi r' A' := by
  cases ht with
  | null heq hlive =>
    subst heq
    exact ⟨hheap, hinv.spaced, hlive ▸ hinv.allLive⟩
  | block e ht hflags hlive =>
    refine ⟨hheap, hflags.spaced hinv.spaced, fun b hb => ?_⟩
    rw [hlive, map_cons]
    rcases (ht.inUse b).mp hb with rfl | hb
    · exact mem_cons_self
    · exact mem_cons_of_mem _ (hinv.allLive b hb)

/-- Whether the free blocks are apart after a release. -/
theorem CoalesceInv.free_iff {p : Nat} (hrel : ReleasedAt A A' p) :
    Spaced A'.flags ↔ (HeapOp.free p).Coalesces r := by
  have hr := hinv.heap.repr
  cases hrel with
  | null hp heq =>
    subst heq
    exact iff_of_true hinv.spaced (.inl hp)
  | block pre post c hp hmid hu hfreed hflags =>
    have hc := Arena.mem_mid hmid
    have hend := hr.wf.end_le hc
    have hchunk : chunkCalcChunkByPtr p = c.addr := by
      rw [hp, chunkCalcChunkByPtr_add (by omega)]
    have hp₀ : ¬ p = 0 := by
      have hsize : CHUNK.sizeof = 32 := rfl
      omega
    have hsp : Spaced (pre.map Block.used ++ true :: post.map Block.used) := by
      have hsp := hinv.spaced
      rwa [Arena.flags, hmid, map_append, map_cons, hu] at hsp
    obtain ⟨hprev, hnext⟩ := hr.neighbours hmid
    rw [hflags, spaced_released hsp]
    simp only [HeapOp.Coalesces, hchunk, hp₀, false_or, hprev, hnext]
    cases (pre.map Block.used).getLast?.getD true <;>
      cases (post.map Block.used).head?.getD true <;> simp

/-- A step keeps the free chunks apart if the block returned does not lie between two. -/
theorem CoalesceInv.step (hop : op.Legal (2 ^ 32 - 1) r) (hok : op.Coalesces r) :
    ∃ r' A', (heapMachine kHeapdlMmMalloc kHeapdlMmFree).step r op = some r' ∧
      CoalesceInv lo hi r' A' := by
  cases op with
  | malloc s =>
    obtain ⟨r', A', hstep, hheap, -, ht, -⟩ := hinv.heap.malloc_step (Nat.le_refl s)
    exact ⟨r', A', hstep, hinv.malloc hheap ht⟩
  | free p =>
    obtain ⟨A', hheap, hrel, -⟩ := hinv.heap.free_step hop
    exact ⟨_, A', rfl, hheap, (hinv.free_iff hrel).mpr hok, hinv.freed hrel⟩
  | store w v => exact ⟨_, A, rfl, hinv.heap.stored hop, hinv.spaced, hinv.allLive⟩

/-- Otherwise two free chunks lie side by side afterwards. -/
theorem CoalesceInv.break (hop : op.Legal (2 ^ 32 - 1) r) (hbad : ¬ op.Coalesces r)
    (hstep : (heapMachine kHeapdlMmMalloc kHeapdlMmFree).step r op = some r') : ¬ Coalesced r' := by
  cases op with
  | malloc s => exact absurd trivial hbad
  | free p =>
    obtain ⟨A', hheap, hrel, -⟩ := hinv.heap.free_step hop
    cases hstep
    intro hco
    exact hbad ((hinv.free_iff hrel).mp (hheap.repr.apart_iff.mp hco.apart))
  | store w v => exact absurd trivial hbad

end Steps

/-- **The free chunks are coalesced along a history iff no block is returned from between
two free ones.** From `k_heapdl_mm_init` on a region with room for the three headers:
in every state no two neighbouring chunks are both free, and there is a single free
chunk when nothing is live, iff no call of `k_heapdl_mm_free` finds both neighbours
free. -/
theorem coalesced_iff (mem : Mem) {memStart memEnd : Nat} (hend : memEnd < 2 ^ 32)
    (hroom : alignAddressToUpper memStart osHeapBlockSize + 3 * CHUNK.sizeof ≤
      alignAddressToLower memEnd osHeapBlockSize) {ops : List HeapOp}
    (hlegal : (heapMachine kHeapdlMmMalloc kHeapdlMmFree).AllSteps
      (fun r op => op.Legal (2 ^ 32 - 1) r) (heapStart mem memStart memEnd) ops) :
    (heapMachine kHeapdlMmMalloc kHeapdlMmFree).AllStates Coalesced
        (heapStart mem memStart memEnd) ops ↔
      (heapMachine kHeapdlMmMalloc kHeapdlMmFree).AllSteps (fun r op => op.Coalesces r)
        (heapStart mem memStart memEnd) ops := by
  have hstart : CoalesceInv _ _ (heapStart mem memStart memEnd) _ :=
    ⟨HeapInv.start mem hend hroom, isChain_singleton _, fun b hb => by cases hb⟩
  refine Machine.always_iff (fun r (h : ∃ A, CoalesceInv _ _ r A) => ?_) ?_ ?_ ⟨_, hstart⟩ hlegal
  · obtain ⟨A, hinv⟩ := h
    exact hinv.coalesced hroom
  · rintro r op ⟨A, hinv⟩ hop hok
    obtain ⟨r', A', hstep, hinv'⟩ := hinv.step hop hok
    exact ⟨r', hstep, trivial, A', hinv'⟩
  · rintro r op r' ⟨A, hinv⟩ hop hbad hstep -
    exact hinv.break hop hbad hstep

/-- On a region of seven blocks: two blocks are taken and returned, the last one first. -/
theorem coalesced_iff_stack_order :
    (heapMachine kHeapdlMmMalloc kHeapdlMmFree).AllStates Coalesced
      (heapStart (fun _ => 0) 0x1000 0x8000)
      [.malloc 4096, .malloc 4096, .store 4160 7, .free 8288, .free 4160] :=
  (coalesced_iff (fun _ => 0) (by decide) (by decide) (by decide +kernel)).mpr (by decide +kernel)

/-- On the same region three blocks are taken, the first and the third returned, and then
the second, which lies between two free chunks. It is merged with the one before it
only: nothing is live, and two free chunks lie side by side. -/
theorem two_free_chunks_side_by_side :
    (heapMachine kHeapdlMmMalloc kHeapdlMmFree).AllSteps (fun r op => op.Legal (2 ^ 32 - 1) r)
      (heapStart (fun _ => 0) 0x1000 0x8000)
      [.malloc 4096, .malloc 4096, .malloc 4096, .free 4160, .free 12416, .free 8288] ∧
    ((heapMachine kHeapdlMmMalloc kHeapdlMmFree).run (heapStart (fun _ => 0) 0x1000 0x8000)
      [.malloc 4096, .malloc 4096, .malloc 4096, .free 4160, .free 12416, .free 8288]).map
      (fun r => (r.live, r.heap.chunks.map fun c => (c, decide (r.heap.IsFree c)))) =
        some ([], [(4096, false), (4128, true), (12384, true), (32736, false)]) := by
  decide +kernel

end UnagiOs
