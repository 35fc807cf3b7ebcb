import UnagiOs.Memory.HeapdlRefine

/-!
# The functions of heapdl.c on a heap that holds an arena

`HeapRepr h A`: the globals and the memory of `h` are those of the arena `A`. One
lemma per function says which arena it leaves behind and what it does to
`mem_free`; nothing below this module unfolds the functions again.

- `kHeapdlMmInit_repr`: the arena of one free block.
- `HeapRepr.malloc_cases`: `NULL`, the first fitting block whole, or a slice of it.
- `HeapRepr.free`: the block is returned and merged with one free neighbour.
-/

namespace UnagiOs

open Links List

/-- What `chunk_init` leaves in a header. -/
structure Fresh (m : Mem) (chunk : Nat) : Prop where
  all : RingAt m CHUNK.all chunk []
  free : RingAt m CHUNK.free chunk []
  used : m (chunk + CHUNK.isUsed) = 0
  size : m (chunk + CHUNK.size) = CHUNK.sizeof

theorem alignedHeader_eq : alignedHeader = CHUNK.sizeof := by decide

theorem kmemsetZero_off (m : Mem) {ptr w : Nat} {n : Nat} (hw : w < ptr ∨ ptr + 4 * n ≤ w) :
    kmemsetZero m ptr n w = m w := by
  induction n with
  | zero => rfl
  | succ n ih =>
    rw [kmemsetZero, Mem.write_other _ _ (by omega)]
    exact ih (by omega)

/-- `chunk_init` writes inside the header only. -/
theorem chunkInit_off (h : Heapdl) {chunk w : Nat} (hw : w < chunk ∨ chunk + CHUNK.sizeof ≤ w) :
    (chunkInit h chunk).mem w = h.mem w := by
  simp only [CHUNK.sizeof] at hw
  simp only [chunkInit, Heapdl.onMem, Heapdl.set, Mem.setUsed, dlistInit, Mem.links, Mem.write,
    CHUNK.all, CHUNK.isUsed, CHUNK.size, CHUNK.free]
  rw [if_neg (by omega), if_neg (by omega), if_neg (by omega), if_neg (by omega),
    if_neg (by omega), if_neg (by omega)]
  exact kmemsetZero_off h.mem (n := 8) hw

theorem chunkInit_fresh (h : Heapdl) (chunk : Nat) : Fresh (chunkInit h chunk).mem chunk := by
  refine ⟨ring_nil.mpr ?_, ring_nil.mpr ?_, ?_, ?_⟩ <;>
    simp [chunkInit, Heapdl.onMem, Heapdl.set, Mem.setUsed, kmemsetZero, dlistInit, Mem.links,
      Mem.write, CHUNK.all, CHUNK.isUsed, CHUNK.size, CHUNK.free, CHUNK.sizeof, alignedHeader_eq,
      Nat.add_assoc]

/-- A fresh header stays fresh while its words are not written. -/
theorem Fresh.congr {m m' : Mem} {chunk : Nat} (hf : Fresh m chunk)
    (hw : ∀ o, o < CHUNK.sizeof → m' (chunk + o) = m (chunk + o)) : Fresh m' chunk := by
  have hring : ∀ {f}, CHUNK.IsNode f → RingAt m f chunk [] → RingAt m' f chunk [] := by
    intro f hf hr
    refine hr.congr_data hf fun x hx o ho _ => ?_
    rw [mem_singleton.mp hx]
    exact hw o ho
  exact ⟨hring .all hf.all, hring .free hf.free, (hw _ CHUNK.IsData.isUsed.lt).trans hf.used,
    (hw _ CHUNK.IsData.size.lt).trans hf.size⟩

/-- `chunk_init` of another header leaves a fresh header fresh. -/
theorem Fresh.chunkInit {h : Heapdl} {a b : Nat} (hf : Fresh h.mem a)
    (hsep : a + CHUNK.sizeof ≤ b ∨ b + CHUNK.sizeof ≤ a) : Fresh (chunkInit h b).mem a :=
  hf.congr fun _ ho => chunkInit_off h (by omega)

/-- The heap represents the arena. -/
structure HeapRepr (h : Heapdl) (A : Arena) : Prop where
  first : h.first = A.first
  last : h.last = A.last
  head : h.freeChunkHead = A.first
  wf : A.WF
  holds : A.Holds h.mem

/-! ## The chunk primitives -/

section Primitives

variable {h : Heapdl} {A : Arena} {pre post : List Block} {c : Block} {f₁ f₂ : List Nat}

/-- A block ends before the address space does. -/
theorem Arena.WF.end_le (hw : A.WF) (hc : c ∈ A.mid) : c.addr + c.size + CHUNK.sizeof < 2 ^ 32 := by
  have h1 := (hw.tiles.bounds.2 c hc).2
  have h2 := hw.top
  omega

theorem HeapRepr.actualFree (hr : HeapRepr h A) (hc : c ∈ A.mid) :
    chunkCalcActualFree h c.addr = c.size - CHUNK.sizeof := by
  have hend := hr.wf.end_le hc
  rw [chunkCalcActualFree, hr.holds.size c (Arena.mem_blocks hc), alignedHeader_eq,
    sub32_of_le (hr.wf.big c hc) (by omega)]

theorem HeapRepr.freeOffset (hr : HeapRepr h A) (hc : c ∈ A.mid) :
    chunkCalcFreeOffset c.addr = c.addr + CHUNK.sizeof := by
  have hend := hr.wf.end_le hc
  rw [chunkCalcFreeOffset, alignedHeader_eq, u32_of_lt (by omega)]

/-- `chunk_engage` engages the block and takes its whole size off `mem_free`. -/
theorem HeapRepr.engage (hr : HeapRepr h A) (hmid : A.mid = pre ++ c :: post)
    (hfree : A.free = f₁ ++ c.addr :: f₂) (hc : c.used = false) :
    HeapRepr (chunkEngage h c.addr)
        { A with mid := pre ++ { c with used := true } :: post, free := f₁ ++ f₂ } ∧
      (chunkEngage h c.addr).memFree = sub32 h.memFree c.size := by
  have hholds := Arena.holds_engage hr.wf hr.holds hmid hfree
  refine ⟨⟨hr.first, hr.last, hr.head, Arena.wf_step hr.wf (.engage hmid hfree hc), hholds⟩, ?_⟩
  exact congrArg (sub32 h.memFree) (hholds.size { c with used := true }
    (Arena.mem_blocks (by simp)))

/-- `chunk_slice` splits the block and leaves `mem_free` alone. -/
theorem HeapRepr.slice (hr : HeapRepr h A) (hmid : A.mid = pre ++ c :: post)
    (hfree : A.free = f₁ ++ c.addr :: f₂) (hc : c.used = false) {s : Nat}
    (hsz : CHUNK.sizeof + s + CHUNK.sizeof ≤ c.size) :
    HeapRepr (chunkSlice h c.addr s) (A.cut pre c post f₁ f₂ s) ∧
      (chunkSlice h c.addr s).memFree = h.memFree := by
  have hcm := Arena.mem_mid hmid
  have hend := hr.wf.end_le hcm
  have h32 : 0 < CHUNK.sizeof := by decide
  have hB : u32 (chunkCalcFreeOffset c.addr + s) = c.addr + (CHUNK.sizeof + s) := by
    rw [hr.freeOffset hcm, u32_of_lt (by omega)]
    omega
  have hwf' := Arena.wf_step hr.wf (.split hmid hfree hc hsz)
  -- the new header lies in the payload, off all old headers
  have hoff : ∀ {a o : Nat}, a ∈ A.addrs → o < CHUNK.sizeof →
      (chunkInit h (c.addr + (CHUNK.sizeof + s))).mem (a + o) = h.mem (a + o) := by
    intro a o ha ho
    refine chunkInit_off h ?_
    have hsep := Arena.WF.sep_block hr.wf hcm ha
    omega
  have hfr := chunkInit_fresh h (c.addr + (CHUNK.sizeof + s))
  have hcs : (chunkInit h (c.addr + (CHUNK.sizeof + s))).mem (c.addr + CHUNK.size) = c.size :=
    (hoff (Arena.mem_addrs hcm) CHUNK.IsData.size.lt).trans
      (hr.holds.size c (Arena.mem_blocks hcm))
  have hholds := Arena.holds_split hr.wf hr.holds hmid hfree hc hsz rfl hfr.all hfr.free hfr.used
    hoff
  -- the two sizes that the code computes
  have hv1 : sub32 (sub32 c.size alignedHeader) s = c.size - (CHUNK.sizeof + s) := by
    rw [alignedHeader_eq, sub32_of_le (a := c.size) (by omega) (by omega),
      sub32_of_le (by omega) (by omega)]
    omega
  have hv2 : sub32 c.size (c.size - (CHUNK.sizeof + s)) = CHUNK.sizeof + s := by
    rw [sub32_of_le (by omega) (by omega)]
    omega
  have hne : c.addr + CHUNK.size ≠ c.addr + (CHUNK.sizeof + s) + CHUNK.size := by omega
  refine ⟨⟨hr.first, hr.last, hr.head, hwf', ?_⟩, rfl⟩
  simp only [chunkSlice, chunkCalcActualFree, Heapdl.onMem, Heapdl.set, hB, hcs,
    hv1, hv2, Mem.write_self, Mem.write_other _ _ hne]
  exact hholds

/-- `chunk_merge` merges the blocks and adds one header to `mem_free`. -/
theorem HeapRepr.merge (hr : HeapRepr h A) {b : Block} (hmid : A.mid = pre ++ b :: c :: post)
    (hfree : A.free = f₁ ++ c.addr :: f₂) (hb : b.used = false) (hc : c.used = false) :
    HeapRepr (chunkMerge h b.addr c.addr)
        { A with mid := pre ++ { b with size := b.size + c.size } :: post, free := f₁ ++ f₂ } ∧
      (chunkMerge h b.addr c.addr).memFree = u32 (h.memFree + CHUNK.sizeof) := by
  have hbm := Arena.mem_mid hmid
  have hcm : c ∈ A.mid := by rw [hmid]; simp
  have hholds := Arena.holds_merge hr.wf hr.holds hmid hfree hb
  have hsum : b.size + c.size < 2 ^ 32 := by
    have hwf' := Arena.wf_step hr.wf (.merge hmid hfree hb hc)
    have := hwf'.end_le (c := { b with size := b.size + c.size }) (by simp)
    simp only at this
    omega
  refine ⟨⟨hr.first, hr.last, hr.head, Arena.wf_step hr.wf (.merge hmid hfree hb hc), ?_⟩, rfl⟩
  have hsize : ∀ d ∈ A.mid, dlistRemove Mem.links (dlistRemove Mem.links h.mem
      (c.addr + CHUNK.all)) (c.addr + CHUNK.free) (d.addr + CHUNK.size) = d.size := fun d hd =>
    (Arena.unlink_data hr.wf hr.holds hcm (by rw [hfree]; simp) (Arena.mem_addrs hd) .size).trans
      (hr.holds.size d (Arena.mem_blocks hd))
  simp only [chunkMerge, Heapdl.onMem, Heapdl.set, hsize b hbm, hsize c hcm,
    u32_of_lt hsum]
  exact hholds

end Primitives

/-! ## `k_heapdl_mm_malloc` -/

/-- The free chunk at which the loop of `k_heapdl_mm_malloc` stops is used
whole: `s` bytes leave less than a block of it over. -/
def takesWhole (h : Heapdl) (s : Nat) : Bool :=
  let head := h.freeChunkHead + CHUNK.free
  if s > h.memFree ∨ h.memFree = 0 ∨ Mem.links.next h.mem head = head then false
  else
    match listForEachEntry Mem.links h.mem head (chunkFits h s) (2 ^ 32)
        (Mem.links.next h.mem head) with
    | some (some d) => decide (chunkCalcActualFree h (d - CHUNK.free) - s < osHeapBlockSize)
    | _ => false

section Malloc

variable {h : Heapdl} {A : Arena}

/-- The loop stops at the first chunk of the free list with room for `s` bytes. -/
theorem HeapRepr.walk (hr : HeapRepr h A) (s : Nat) :
    listForEachEntry Mem.links h.mem (h.freeChunkHead + CHUNK.free) (chunkFits h s) (2 ^ 32)
        (Mem.links.next h.mem (h.freeChunkHead + CHUNK.free)) =
      some ((A.free.map (· + CHUNK.free)).find? (chunkFits h s)) := by
  rw [hr.head]
  refine listForEachEntry_ring _ hr.holds.free ?_ _ ?_
  · have hnd := nodup_map_add CHUNK.free hr.wf.free_ring_nodup
    rw [map_cons, nodup_cons] at hnd
    exact hnd.1
  · rw [length_map]
    exact hr.wf.free_length_lt

/-- The chunk that the loop stops at is a free block with room for `s` bytes. -/
theorem HeapRepr.walk_some (hr : HeapRepr h A) {s d : Nat}
    (hd : (A.free.map (· + CHUNK.free)).find? (chunkFits h s) = some d) :
    ∃ pre c post f₁ f₂, A.mid = pre ++ c :: post ∧ A.free = f₁ ++ c.addr :: f₂ ∧
      c.used = false ∧ CHUNK.sizeof + s ≤ c.size ∧ d - CHUNK.free = c.addr := by
  obtain ⟨a, ha, rfl⟩ := mem_map.mp (mem_of_find?_eq_some hd)
  obtain ⟨c, hc, rfl, hu⟩ := hr.wf.mem_free.mp ha
  obtain ⟨pre, post, hmid⟩ := append_of_mem hc
  obtain ⟨f₁, f₂, hfree⟩ := append_of_mem ha
  have hfits := find?_some hd
  simp only [chunkFits, Nat.add_sub_cancel, Bool.and_eq_true, decide_eq_true_iff,
    hr.actualFree hc] at hfits
  have hbig := hr.wf.big c hc
  exact ⟨pre, c, post, f₁, f₂, hmid, hfree, hu, by omega, Nat.add_sub_cancel _ _⟩

/-- `k_heapdl_mm_malloc` answers `NULL` and changes nothing, or it engages the
first fitting free block, whole or after slicing it. -/
theorem HeapRepr.malloc_cases (hr : HeapRepr h A) (s : Nat) :
    (kHeapdlMmMalloc h s = some (h, 0) ∧ takesWhole h s = false) ∨
    ∃ pre c post f₁ f₂, A.mid = pre ++ c :: post ∧ A.free = f₁ ++ c.addr :: f₂ ∧
      c.used = false ∧ CHUNK.sizeof + s ≤ c.size ∧
      ((takesWhole h s = true ∧
          kHeapdlMmMalloc h s = some (chunkEngage h c.addr, c.addr + CHUNK.sizeof)) ∨
        (takesWhole h s = false ∧ CHUNK.sizeof + s + CHUNK.sizeof ≤ c.size ∧
          kHeapdlMmMalloc h s =
            some (chunkEngage (chunkSlice h c.addr s) c.addr, c.addr + CHUNK.sizeof))) := by
  simp only [kHeapdlMmMalloc, takesWhole, hr.walk]
  split
  · exact .inl ⟨rfl, rfl⟩
  cases hd : (A.free.map (· + CHUNK.free)).find? (chunkFits h s) with
  | none => exact .inl ⟨rfl, rfl⟩
  | some d =>
    obtain ⟨pre, c, post, f₁, f₂, hmid, hfree, hu, hsz, hpos⟩ := hr.walk_some hd
    have hc := Arena.mem_mid hmid
    refine .inr ⟨pre, c, post, f₁, f₂, hmid, hfree, hu, hsz, ?_⟩
    simp only [hpos, hr.actualFree hc, hr.freeOffset hc]
    by_cases hlt : c.size - CHUNK.sizeof - s < osHeapBlockSize
    · exact .inl ⟨decide_eq_true hlt, if_pos hlt⟩
    · refine .inr ⟨decide_eq_false hlt, ?_, if_neg hlt⟩
      have : CHUNK.sizeof ≤ osHeapBlockSize := by decide
      omega

/-- A block has been handed out: it is in use now, it was not before, and
nothing else changed but a possible new header behind its payload. -/
structure Took (A A' : Arena) (s : Nat) (e : Block) : Prop where
  first : A'.first = A.first
  last : A'.last = A.last
  used : e.used = true
  room : CHUNK.sizeof + s ≤ e.size
  was_free : e.addr ∈ A.free
  inUse : ∀ b, b ∈ A'.inUse ↔ b = e ∨ b ∈ A.inUse
  addrs : ∀ a ∈ A'.addrs, a ∈ A.addrs ∨ a = e.addr + (CHUNK.sizeof + s)

/-- A free block is now in use, and what is left of it may follow as a free block. -/
inductive TookFlags : List Bool → List Bool → Prop
  | whole (pre post : List Bool) : TookFlags (pre ++ false :: post) (pre ++ true :: post)
  | slice (pre post : List Bool) : TookFlags (pre ++ false :: post) (pre ++ true :: false :: post)

/-- **`k_heapdl_mm_malloc` on a represented heap**: `NULL` and no change, or a
block is taken. The counter always loses the whole size of the block; the free
bytes do too, unless the chunk was taken whole, where its header was never
counted. -/
theorem HeapRepr.malloc (hr : HeapRepr h A) (s : Nat) :
    (kHeapdlMmMalloc h s = some (h, 0) ∧ takesWhole h s = false) ∨
    ∃ h' A' e, kHeapdlMmMalloc h s = some (h', e.addr + CHUNK.sizeof) ∧ HeapRepr h' A' ∧
      Took A A' s e ∧ TookFlags A.flags A'.flags ∧ h'.memFree = sub32 h.memFree e.size ∧
      h'.memAll = h.memAll ∧
      A.freeBytes + (if takesWhole h s then CHUNK.sizeof else 0) = A'.freeBytes + e.size := by
  rcases hr.malloc_cases s with hnull | ⟨pre, c, post, f₁, f₂, hmid, hfree, hu, hsz, hw | hw⟩
  · exact .inl hnull
  -- the block is taken whole
  · obtain ⟨htw, heq⟩ := hw
    obtain ⟨hr', hmf⟩ := hr.engage hmid hfree hu
    have hc := Arena.mem_mid hmid
    have hflags : TookFlags A.flags (Arena.flags
        { A with mid := pre ++ { c with used := true } :: post, free := f₁ ++ f₂ }) := by
      simp only [Arena.flags, hmid, map_append, map_cons, hu]
      exact .whole _ _
    refine .inr ⟨_, _, { c with used := true }, heq, hr', ⟨rfl, rfl, rfl, hsz, ?_, ?_, ?_⟩, hflags,
      hmf, rfl, ?_⟩
    · rw [hfree]
      simp
    · exact fun b => Arena.mem_inUse_engage hmid hu
    · intro a ha
      refine .inl ?_
      rw [Arena.addrs_eq] at ha ⊢
      rw [hmid]
      simpa using ha
    · have := Arena.freeBytes_engage (f₁ ++ f₂) hmid hu
      have hb := hr.wf.big c hc
      rw [htw, if_pos rfl]
      show A.freeBytes + _ = _ + c.size
      omega
  -- the block is cut, and its first part taken
  · obtain ⟨htw, hroom, heq⟩ := hw
    obtain ⟨hr1, hmf1⟩ := hr.slice hmid hfree hu hroom
    obtain ⟨hr2, hmf2⟩ := hr1.engage rfl rfl rfl
    refine .inr ⟨_, _, ⟨c.addr, CHUNK.sizeof + s, true⟩, heq, hr2,
      ⟨rfl, rfl, rfl, Nat.le_refl _, ?_, ?_, ?_⟩, ?_, hmf2.trans (by rw [hmf1]), rfl, ?_⟩
    · rw [hfree]
      simp
    · intro b
      rw [Arena.mem_inUse_engage rfl rfl]
      have hsplit := Arena.inUse_replace [c] [⟨c.addr, CHUNK.sizeof + s, false⟩,
        ⟨c.addr + (CHUNK.sizeof + s), c.size - (CHUNK.sizeof + s), false⟩]
        (f₁ ++ c.addr :: (c.addr + (CHUNK.sizeof + s)) :: f₂) hmid (by simpa using hu) (by simp)
      exact or_congr_right (iff_of_eq (congrArg (b ∈ ·) hsplit))
    · intro a ha
      rw [Arena.mem_addrs_split [c] hmid]
      rcases (Arena.mem_addrs_split [_, _] rfl).mp ha with hseg | hrest
      · rcases mem_cons.mp hseg with hfirst | hnew
        · exact .inl (.inl (mem_singleton.mpr hfirst))
        · exact .inr (mem_singleton.mp hnew)
      · exact .inl (.inr hrest)
    · simp only [Arena.flags, hmid, map_append, map_cons, hu]
      exact .slice _ _
    · have h1 := Arena.freeBytes_split f₁ f₂ hmid hu hroom
      have h2 := Arena.freeBytes_engage (A := A.cut pre c post f₁ f₂ s)
        (f₁ ++ (c.addr + (CHUNK.sizeof + s)) :: f₂) rfl rfl
      rw [htw, h1, h2]
      simp only [Bool.false_eq_true, if_false]
      omega

end Malloc

/-! ## `k_heapdl_mm_free` -/

section Free

variable {h : Heapdl} {A : Arena} {m : Mem} {pre post : List Block} {c : Block} {b : Block}

/-- The `all` ring seen from one block. -/
theorem Arena.Holds.all_middle (hm : A.Holds m) (hmid : A.mid = pre ++ c :: post) :
    Mem.links.Ring m (A.first + CHUNK.all) (pre.map (fun b => b.addr + CHUNK.all) ++
      (c.addr + CHUNK.all) :: (post.map (fun b => b.addr + CHUNK.all) ++
        [A.last + CHUNK.all])) := by
  have hring := hm.all
  rw [hmid] at hring
  simpa [RingAt, Function.comp_def] using hring

/-- The chunk before `c` on the `all` ring is in use, or it is the block before
`c` in the arena. -/
theorem Arena.Holds.prev_block (hm : A.Holds m) (hw : A.WF) (hmid : A.mid = pre ++ c :: post) :
    ∃ b ∈ A.blocks, Mem.links.prev m (c.addr + CHUNK.all) = b.addr + CHUNK.all ∧
      b.addr ≠ c.addr ∧ (pre.map Block.used).getLast?.getD true = b.used ∧
        (b.used = true ∨ ∃ pre', pre = pre' ++ [b]) := by
  have hprev := (hm.all_middle hmid).prev_mem
  have hc := Arena.mem_mid hmid
  rcases eq_nil_or_concat pre with rfl | ⟨pre', b, rfl⟩
  · exact ⟨⟨A.first, CHUNK.sizeof, true⟩, by simp [Arena.blocks], hprev,
      (hw.first_not_mid hc).symm, rfl, .inl rfl⟩
  · have hnd := hw.mid_nodup
    rw [concat_eq_append] at hmid hprev ⊢
    rw [hmid] at hnd
    refine ⟨b, Arena.mem_blocks (by rw [hmid]; simp), by simpa using hprev, ?_, by simp,
      .inr ⟨pre', rfl⟩⟩
    simp only [map_append, map_cons, append_assoc, cons_append,
      nil_append, nodup_append, nodup_cons, mem_cons, not_or] at hnd
    exact hnd.2.1.1.1

/-- The chunk after `c` on the `all` ring is in use, or it is the block after
`c` in the arena. -/
theorem Arena.Holds.next_block (hm : A.Holds m) (hw : A.WF) (hmid : A.mid = pre ++ c :: post) :
    ∃ b ∈ A.blocks, Mem.links.next m (c.addr + CHUNK.all) = b.addr + CHUNK.all ∧
      b.addr ≠ c.addr ∧ (post.map Block.used).head?.getD true = b.used ∧
        (b.used = true ∨ ∃ post', post = b :: post') := by
  have hnext := (hm.all_middle hmid).next_mem
  have hc := Arena.mem_mid hmid
  cases post with
  | nil =>
    exact ⟨⟨A.last, CHUNK.sizeof, true⟩, by simp [Arena.blocks], hnext,
      (hw.last_not_mid hc).symm, rfl, .inl rfl⟩
  | cons b post' =>
    have hnd := hw.mid_nodup
    rw [hmid] at hnd
    refine ⟨b, Arena.mem_blocks (by rw [hmid]; simp), hnext, ?_, rfl, .inr ⟨post', rfl⟩⟩
    simp only [map_append, map_cons, nodup_append, nodup_cons,
      mem_cons, not_or] at hnd
    exact fun he => hnd.2.1.1.1 he.symm

/-- The heap after the first two assignments of `chunk_free`. -/
def clearUsed (h : Heapdl) (c : Block) : Heapdl :=
  { h with
    mem := h.mem.write (c.addr + CHUNK.isUsed) 0
    memFree := u32 (h.memFree + (c.size - CHUNK.sizeof)) }

/-- `chunk_free` with its reads of the neighbours resolved. -/
theorem HeapRepr.chunkFree_eq (hr : HeapRepr h A) (hc : c ∈ A.mid) {b' : Block} (hb : b ∈ A.blocks)
    (hb' : b' ∈ A.blocks) (hprev : Mem.links.prev h.mem (c.addr + CHUNK.all) = b.addr + CHUNK.all)
    (hnext : Mem.links.next h.mem (c.addr + CHUNK.all) = b'.addr + CHUNK.all)
    (hbc : b.addr ≠ c.addr) (hbc' : b'.addr ≠ c.addr) :
    chunkFree h c.addr =
      if b.used = false then
        chunkMerge ((clearUsed h c).onMem fun m =>
          dlistInsertAfter Mem.links m (b.addr + CHUNK.free) (c.addr + CHUNK.free)) b.addr c.addr
      else if b'.used = false then
        chunkMerge ((clearUsed h c).onMem fun m =>
          dlistInsertBefore Mem.links m (b'.addr + CHUNK.free) (c.addr + CHUNK.free)) c.addr b'.addr
      else
        (clearUsed h c).onMem fun m =>
          dlistInsertAfter Mem.links m (A.first + CHUNK.free) (c.addr + CHUNK.free) := by
  have hca := Arena.mem_addrs hc
  have hend := hr.wf.end_le hc
  have hword : ∀ {a o : Nat}, a ∈ A.addrs → o < CHUNK.sizeof → (a ≠ c.addr ∨ o ≠ CHUNK.isUsed) →
      h.mem.write (c.addr + CHUNK.isUsed) 0 (a + o) = h.mem (a + o) :=
    fun ha ho hne => hr.wf.write_word 0 hca ha .isUsed ho hne
  have hsize : h.mem.write (c.addr + CHUNK.isUsed) 0 (c.addr + CHUNK.size) = c.size :=
    (hword hca CHUNK.IsData.size.lt (.inr CHUNK.size_ne_isUsed)).trans
      (hr.holds.size c (Arena.mem_blocks hc))
  have hused : ∀ d ∈ A.blocks, d.addr ≠ c.addr →
      (h.mem.write (c.addr + CHUNK.isUsed) 0).isUsed d.addr = d.used := fun d hd hne =>
    Mem.isUsed_of_word ((hword (Arena.addr_mem_of_blocks hd) CHUNK.IsData.isUsed.lt
      (.inl hne)).trans (hr.holds.used d hd))
  obtain ⟨hnextOff, hprevOff⟩ := CHUNK.IsNode.all.offData
  have hp : h.mem.write (c.addr + CHUNK.isUsed) 0 (c.addr + CHUNK.all + 4) = b.addr + CHUNK.all :=
    (hword hca CHUNK.IsNode.all.lt (.inr (hprevOff _ .isUsed))).trans hprev
  have hn : h.mem.write (c.addr + CHUNK.isUsed) 0 (c.addr + CHUNK.all) = b'.addr + CHUNK.all :=
    (hword hca CHUNK.IsNode.all.next_lt (.inr (hnextOff _ .isUsed))).trans hnext
  have hclear : h.mem.setUsed c.addr false = h.mem.write (c.addr + CHUNK.isUsed) 0 :=
    hr.holds.setUsed (Arena.mem_blocks hc) false
  simp only [chunkFree, Heapdl.onMem, hclear, Mem.links, hp, hn, Nat.add_sub_cancel, hsize,
    hused b hb hbc, hused b' hb' hbc', hr.head,
    sub32_of_le (hr.wf.big c hc) (show c.size < 2 ^ 32 by omega), clearUsed]

/-- The block is back on the free list, wherever the list primitive `f` put it. -/
theorem HeapRepr.release (hr : HeapRepr h A) (hmid : A.mid = pre ++ c :: post)
    (hu : c.used = true) (f : Mem → Mem) (f₁ f₂ : List Nat) (hfree : A.free = f₁ ++ f₂)
    (hring : RingAt (f (clearUsed h c).mem) CHUNK.free A.first (f₁ ++ c.addr :: f₂))
    (hrel : Relinked (c.addr :: A.first :: A.free) CHUNK.free (clearUsed h c).mem
      (f (clearUsed h c).mem)) :
    HeapRepr ((clearUsed h c).onMem f)
      { A with mid := pre ++ { c with used := false } :: post, free := f₁ ++ c.addr :: f₂ } :=
  ⟨hr.first, hr.last, hr.head, Arena.wf_step hr.wf (.release hmid hfree hu),
    Arena.holds_release hr.wf hr.holds hmid hring hrel⟩

section Relink

variable (hr : HeapRepr h A) (hmid : A.mid = pre ++ c :: post) (hu : c.used = true) {d : Nat}
  {f₁ f₂ : List Nat}
include hr hmid hu

/-- A block in use and the free ring, as nodes to be linked. -/
theorem HeapRepr.relink_nodes :
    RingAt (clearUsed h c).mem CHUNK.free A.first A.free ∧
      RingAt (clearUsed h c).mem CHUNK.free c.addr [] ∧ (c.addr :: A.first :: A.free).Nodup ∧
      ∀ y ∈ c.addr :: A.first :: A.free, y ∈ A.addrs := by
  have hc := Arena.mem_mid hmid
  have hca := Arena.mem_addrs hc
  refine ⟨?_, ?_, nodup_cons.mpr ⟨hr.wf.used_off_free hc hu, hr.wf.free_ring_nodup⟩,
    forall_mem_cons.mpr ⟨hca, hr.wf.free_ring_subset⟩⟩
  · exact hr.wf.ringAt_write hca .isUsed .free hr.wf.free_ring_subset hr.holds.free
  · exact hr.wf.ringAt_write hca .isUsed .free (by simpa using hca) (hr.holds.alone c hc hu)

theorem HeapRepr.relink_head :
    HeapRepr ((clearUsed h c).onMem fun m =>
        dlistInsertAfter Mem.links m (A.first + CHUNK.free) (c.addr + CHUNK.free))
      { A with mid := pre ++ { c with used := false } :: post, free := c.addr :: A.free } := by
  obtain ⟨h1, h2, hnd, hsub⟩ := hr.relink_nodes hmid hu
  exact hr.release hmid hu _ [] A.free rfl (hr.wf.insertAfter_head .free h1 h2 hnd hsub)
    (h1.insertAfter_relinked h2 mem_cons_self)

theorem HeapRepr.relink_after (hfree : A.free = f₁ ++ d :: f₂) :
    HeapRepr ((clearUsed h c).onMem fun m =>
        dlistInsertAfter Mem.links m (d + CHUNK.free) (c.addr + CHUNK.free))
      { A with
        mid := pre ++ { c with used := false } :: post, free := f₁ ++ d :: c.addr :: f₂ } := by
  obtain ⟨h1, h2, hnd, hsub⟩ := hr.relink_nodes hmid hu
  have hd : d ∈ A.first :: A.free := by rw [hfree]; simp
  have hins := hr.wf.insertAfter_member (d := d) .free (hfree ▸ h1) h2 (hfree ▸ hnd)
    (hfree ▸ hsub)
  have hrel := hr.release hmid hu
    (fun m => dlistInsertAfter Mem.links m (d + CHUNK.free) (c.addr + CHUNK.free)) (f₁ ++ [d]) f₂
    (by rw [hfree]; simp) (by simpa using hins) (h1.insertAfter_relinked h2 hd)
  simpa using hrel

theorem HeapRepr.relink_before (hfree : A.free = f₁ ++ d :: f₂) :
    HeapRepr ((clearUsed h c).onMem fun m =>
        dlistInsertBefore Mem.links m (d + CHUNK.free) (c.addr + CHUNK.free))
      { A with
        mid := pre ++ { c with used := false } :: post, free := f₁ ++ c.addr :: d :: f₂ } := by
  obtain ⟨h1, h2, hnd, hsub⟩ := hr.relink_nodes hmid hu
  have hd : d ∈ A.first :: A.free := by rw [hfree]; simp
  exact hr.release hmid hu _ f₁ (d :: f₂) hfree
    (hr.wf.insertBefore_member .free (hfree ▸ h1) h2 (hfree ▸ hnd) (hfree ▸ hsub))
    (h1.insertBefore_relinked h2 hd)

end Relink

/-- A block has been returned: it is not in use any more, and nothing else
changed but headers that may have gone. -/
structure Freed (A A' : Arena) (c : Block) : Prop where
  first : A'.first = A.first
  last : A'.last = A.last
  inUse : ∀ b, b ∈ A'.inUse ↔ b ∈ A.inUse ∧ b ≠ c
  addrs : ∀ a ∈ A'.addrs, a ∈ A.addrs

/-- Unlike in `k_heapdl_mm_malloc`, the counter and the free bytes move together. -/
structure FreedBy (h h' : Heapdl) (A A' : Arena) (c : Block) : Prop where
  freed : Freed A A' c
  memAll : h'.memAll = h.memAll
  bytes : ∃ d, A'.freeBytes = A.freeBytes + d ∧ h'.memFree = u32 (h.memFree + d)

/-- The blocks once one between `pre` and `post` has been returned: it stays by itself
only between blocks in use. -/
def releasedFlags (pre post : List Bool) : List Bool :=
  if pre.getLast?.getD true && post.head?.getD true then pre ++ false :: post else pre ++ post

/-- `chunk_free` where it merges the released block with a neighbour. -/
theorem HeapRepr.release_merge {A₁ : Arena} {h₁ : Heapdl} (hr₁ : HeapRepr h₁ A₁)
    (hf : FreedBy h h₁ A A₁ c) {d : Block} {f₁ f₂ : List Nat}
    (hmid : A₁.mid = pre ++ b :: d :: post) (hfree : A₁.free = f₁ ++ d.addr :: f₂)
    (hb : b.used = false) (hd : d.used = false) :
    ∃ A', HeapRepr (chunkMerge h₁ b.addr d.addr) A' ∧
      FreedBy h (chunkMerge h₁ b.addr d.addr) A A' c ∧
      A'.flags = pre.map Block.used ++ false :: post.map Block.used := by
  obtain ⟨hr', hmf⟩ := hr₁.merge hmid hfree hb hd
  have hin := Arena.inUse_replace [b, d] [{ b with size := b.size + d.size }] (f₁ ++ f₂) hmid
    (by simp [hb, hd]) (by simpa using hb)
  obtain ⟨n, hn, hmf₁⟩ := hf.bytes
  refine ⟨_, hr', ⟨⟨hf.freed.first, hf.freed.last, fun e => ?_, fun a ha => ?_⟩, hf.memAll, ?_⟩,
    by simp [Arena.flags, hb]⟩
  · exact (iff_of_eq (congrArg (e ∈ ·) hin)).trans (hf.freed.inUse e)
  · refine hf.freed.addrs a ((Arena.mem_addrs_split [b, d] hmid).mpr ?_)
    rcases (Arena.mem_addrs_split [_] rfl).mp ha with hseg | hrest
    · rw [mem_singleton.mp hseg]
      exact .inl mem_cons_self
    · exact .inr hrest
  · have hbytes := Arena.freeBytes_merge (f₁ ++ f₂) hr₁.wf hmid hb hd
    refine ⟨n + CHUNK.sizeof, by omega, ?_⟩
    rw [hmf, hmf₁]
    simp only [u32]
    omega

/-- **`chunk_free` on a represented heap**: the block is returned, and merged
with the block before it or else with the block after it if one is free. -/
theorem HeapRepr.chunkFree (hr : HeapRepr h A) (hmid : A.mid = pre ++ c :: post)
    (hu : c.used = true) :
    ∃ A', HeapRepr (chunkFree h c.addr) A' ∧ FreedBy h (chunkFree h c.addr) A A' c ∧
      A'.flags = releasedFlags (pre.map Block.used) (post.map Block.used) := by
  have hc := Arena.mem_mid hmid
  have hfreed : ∀ f free', FreedBy h ((clearUsed h c).onMem f) A
      { A with mid := pre ++ { c with used := false } :: post, free := free' } c := by
    intro f free'
    refine ⟨⟨rfl, rfl, fun b => Arena.mem_inUse_release hr.wf hmid, fun a ha => ?_⟩, rfl,
      c.size - CHUNK.sizeof, Arena.freeBytes_release free' hmid hu, rfl⟩
    rw [Arena.addrs_eq] at ha ⊢
    rw [hmid]
    simpa using ha
  obtain ⟨b, hb, hprev, hbc, hflag, hbpre⟩ := hr.holds.prev_block hr.wf hmid
  obtain ⟨b', hb', hnext, hbc', hflag', hbpost⟩ := hr.holds.next_block hr.wf hmid
  rw [hr.chunkFree_eq hc hb hb' hprev hnext hbc hbc', releasedFlags, hflag, hflag']
  split
  next hbu =>
    obtain ⟨pre', rfl⟩ := hbpre.resolve_left (by simp [hbu])
    have hbm : b ∈ A.mid := by rw [hmid]; simp
    obtain ⟨f₁, f₂, hfree⟩ := append_of_mem (hr.wf.mem_free.mpr ⟨b, hbm, rfl, hbu⟩)
    have hmid' : pre' ++ [b] ++ { c with used := false } :: post =
        pre' ++ b :: { c with used := false } :: post := by simp
    have hfree' : f₁ ++ b.addr :: c.addr :: f₂ = (f₁ ++ [b.addr]) ++ c.addr :: f₂ := by simp
    obtain ⟨A', hr', hf, hflags⟩ := (hr.relink_after hmid hu hfree).release_merge (hfreed _ _)
      (d := { c with used := false }) hmid' hfree' hbu rfl
    exact ⟨A', hr', hf, by simp [hflags, hbu]⟩
  next hbu =>
    split
    next hbu' =>
      obtain ⟨post', rfl⟩ := hbpost.resolve_left (by simp [hbu'])
      have hbm : b' ∈ A.mid := by rw [hmid]; simp
      obtain ⟨f₁, f₂, hfree⟩ := append_of_mem (hr.wf.mem_free.mpr ⟨b', hbm, rfl, hbu'⟩)
      have hfree' : f₁ ++ c.addr :: b'.addr :: f₂ = (f₁ ++ [c.addr]) ++ b'.addr :: f₂ := by simp
      obtain ⟨A', hr', hf, hflags⟩ := (hr.relink_before hmid hu hfree).release_merge (hfreed _ _)
        (b := { c with used := false }) rfl hfree' rfl hbu'
      exact ⟨A', hr', hf, by simp [hflags, hbu']⟩
    next hbu' =>
      rw [Bool.not_eq_false] at hbu hbu'
      exact ⟨_, hr.relink_head hmid hu, hfreed _ _, by simp [Arena.flags, hbu, hbu']⟩

/-- The chunk of a payload. -/
theorem chunkCalcChunkByPtr_add {a : Nat} (htop : a + CHUNK.sizeof < 2 ^ 32) :
    chunkCalcChunkByPtr (a + CHUNK.sizeof) = a := by
  rw [chunkCalcChunkByPtr, alignedHeader_eq, sub32_of_le (Nat.le_add_left _ _) htop,
    Nat.add_sub_cancel]

/-- `k_heapdl_mm_free` finds the chunk of a payload in use. -/
theorem HeapRepr.free_eq (hr : HeapRepr h A) (hc : c ∈ A.mid) (hu : c.used = true) :
    kHeapdlMmFree h (c.addr + CHUNK.sizeof) = UnagiOs.chunkFree h c.addr := by
  have hend := hr.wf.end_le hc
  have hchunk : chunkCalcChunkByPtr (c.addr + CHUNK.sizeof) = c.addr :=
    chunkCalcChunkByPtr_add (by omega)
  have hused : h.mem.isUsed c.addr = true := (hr.holds.isUsed (Arena.mem_blocks hc)).trans hu
  have hptr : c.addr + CHUNK.sizeof ≠ 0 := by
    have : 0 < CHUNK.sizeof := by decide
    omega
  rw [kHeapdlMmFree, if_neg hptr]
  simp only [hchunk]
  rw [if_pos hused]

/-- **`k_heapdl_mm_free` of a block in use.** -/
theorem HeapRepr.free (hr : HeapRepr h A) (hmid : A.mid = pre ++ c :: post)
    (hu : c.used = true) :
    ∃ A', HeapRepr (kHeapdlMmFree h (c.addr + CHUNK.sizeof)) A' ∧
      FreedBy h (kHeapdlMmFree h (c.addr + CHUNK.sizeof)) A A' c ∧
      A'.flags = releasedFlags (pre.map Block.used) (post.map Block.used) := by
  rw [hr.free_eq (Arena.mem_mid hmid) hu]
  exact hr.chunkFree hmid hu

end Free

/-! ## `k_heapdl_mm_init` -/

section Init

variable {first last second : Nat} {A : Arena} {m : Mem}

/-- The arena that `k_heapdl_mm_init` sets up: one free block between the sentinels. -/
def initArena (first last : Nat) : Arena where
  first := first
  mid := [⟨first + CHUNK.sizeof, last - (first + CHUNK.sizeof), false⟩]
  last := last
  free := [first + CHUNK.sizeof]

theorem initArena_wf {first last : Nat} (hroom : first + 2 * CHUNK.sizeof ≤ last)
    (htop : last + CHUNK.sizeof < 2 ^ 32) : (initArena first last).WF := by
  refine ⟨⟨rfl, ?_⟩, ?_, htop, List.Perm.refl _⟩
  · show first + CHUNK.sizeof + (last - (first + CHUNK.sizeof)) = last
    omega
  · intro b hb
    rw [mem_singleton.mp hb]
    show CHUNK.sizeof ≤ last - (first + CHUNK.sizeof)
    omega

theorem initArena_blocks {P : Block → Prop} (hfirst : P ⟨first, CHUNK.sizeof, true⟩)
    (hmid : P ⟨first + CHUNK.sizeof, last - (first + CHUNK.sizeof), false⟩)
    (hlast : P ⟨last, CHUNK.sizeof, true⟩) : ∀ b ∈ (initArena first last).blocks, P b := by
  intro b hb
  simp only [initArena, Arena.blocks, cons_append, nil_append, mem_cons,
    not_mem_nil, or_false] at hb
  rcases hb with rfl | rfl | rfl
  · exact hfirst
  · exact hmid
  · exact hlast

/-- Three single nodes linked one after the other. -/
theorem Arena.WF.link_three (hw : A.WF) {f a b c : Nat} (hf : CHUNK.IsNode f)
    (hnd : [a, b, c].Nodup) (hsub : ∀ y ∈ [a, b, c], y ∈ A.addrs)
    (hone : ∀ y ∈ [a, b, c], RingAt m f y []) :
    let m' := dlistInsertAfter Mem.links (dlistInsertAfter Mem.links m (a + f) (b + f)) (b + f)
      (c + f)
    RingAt m' f a [b, c] ∧ Relinked [a, b, c] f m m' := by
  simp only [nodup_cons, mem_cons, not_mem_nil, not_or, or_false, forall_eq_or_imp,
    forall_eq] at hnd hsub hone
  obtain ⟨⟨hab, hac⟩, hbc, -⟩ := hnd
  obtain ⟨ha, hb, hc⟩ := hsub
  obtain ⟨ha1, hb1, hc1⟩ := hone
  have hring1 := hw.insertAfter_head hf ha1 hb1 (by simpa using Ne.symm hab) (by simp [ha, hb])
  have hm1 := ha1.insertAfter_relinked hb1 (d := a) mem_cons_self
  generalize dlistInsertAfter Mem.links m (a + f) (b + f) = m1 at *
  have hnot : c ∈ [b, a] → ∀ {o : Nat}, CHUNK.OffNode f o := fun hmem => absurd hmem (by
    simp [Ne.symm hbc, Ne.symm hac])
  have hc1' : RingAt m1 f c [] := hc1.congr_alone
    (hw.relinked_word hf (by simp [ha, hb]) hm1 hc hf.next_lt fun hmem => hnot hmem)
    (hw.relinked_word hf (by simp [ha, hb]) hm1 hc hf.lt fun hmem => hnot hmem)
  have hm2 := hring1.insertAfter_relinked hc1' (d := b) (by simp)
  exact ⟨hw.insertAfter_member hf (show RingAt m1 f a ([] ++ [b]) from hring1) hc1'
    (by simp [hab, Ne.symm hac, Ne.symm hbc]) (by simp [ha, hb, hc]),
    (hm1.mono (by simp)).trans (hm2.mono (by simp))⟩

/-- The field writes of `k_heapdl_mm_init`. -/
def initFields (m : Mem) (first second last : Nat) : Mem :=
  ((m.setUsed first true).setUsed last true).write (second + CHUNK.size) (last - second)

/-- What the field writes leave in the three headers. -/
theorem Arena.WF.initFields (hw : A.WF) (m : Mem) (hf : first ∈ A.addrs) (hs : second ∈ A.addrs)
    (hl : last ∈ A.addrs) (hfu : m (first + CHUNK.isUsed) = 0) (hlu : m (last + CHUNK.isUsed) = 0) :
    (∀ {a o : Nat}, a ∈ A.addrs → o < CHUNK.sizeof → (a = second ∨ o ≠ CHUNK.isUsed) →
        (a ≠ second ∨ o ≠ CHUNK.size) → first ≠ second → last ≠ second →
        initFields m first second last (a + o) = m (a + o)) ∧
      (first ≠ last → initFields m first second last (first + CHUNK.isUsed) = 1) ∧
      initFields m first second last (last + CHUNK.isUsed) = 1 ∧
      initFields m first second last (second + CHUNK.size) = last - second := by
  -- both flags are set in clear words
  have hlu' : m.write (first + CHUNK.isUsed) 1 (last + CHUNK.isUsed) < 256 := by
    rw [Mem.write, hlu]
    split <;> decide
  have hfirst : m.setUsed first true = m.write (first + CHUNK.isUsed) 1 :=
    Mem.setUsed_eq_write (by rw [hfu]; decide) true
  have hlast : (m.write (first + CHUNK.isUsed) 1).setUsed last true = _ :=
    Mem.setUsed_eq_write hlu' true
  rw [UnagiOs.initFields, hfirst, hlast, Bool.toNat_true]
  refine ⟨fun ha ho h1 h2 hfs hls => ?_, fun hne => ?_, ?_, Mem.write_self _ _ _⟩
  · rw [hw.write_word _ hs ha .size ho h2, hw.write_word _ hl ha .isUsed ho ?_,
      hw.write_word _ hf ha .isUsed ho ?_]
    · rcases h1 with rfl | h1
      · exact .inl (Ne.symm hfs)
      · exact .inr h1
    · rcases h1 with rfl | h1
      · exact .inl (Ne.symm hls)
      · exact .inr h1
  · rw [hw.write_word _ hs hf .size CHUNK.IsData.isUsed.lt (.inr CHUNK.size_ne_isUsed.symm),
      hw.write_word _ hl hf .isUsed CHUNK.IsData.isUsed.lt (.inl hne), Mem.write_self]
  · rw [hw.write_word _ hs hl .size CHUNK.IsData.isUsed.lt (.inr CHUNK.size_ne_isUsed.symm),
      Mem.write_self]

/-- From three fresh headers, the rest of `k_heapdl_mm_init` builds the arena. -/
theorem initArena_holds (hw : (initArena first last).WF) (hsec : second = first + CHUNK.sizeof)
    (hfresh : ∀ a ∈ (initArena first last).addrs, Fresh m a) :
    (initArena first last).Holds
      (dlistInsertAfter Mem.links (initFields (dlistInsertAfter Mem.links
        (dlistInsertAfter Mem.links m (first + CHUNK.all) (second + CHUNK.all))
        (second + CHUNK.all) (last + CHUNK.all)) first second last) (first + CHUNK.free)
        (second + CHUNK.free)) := by
  have haddrs : (initArena first last).addrs = [first, second, last] := by rw [hsec]; rfl
  have hnd := hw.addrs_nodup
  rw [haddrs] at hnd
  have hsub : ∀ y ∈ [first, second, last], y ∈ (initArena first last).addrs :=
    fun y hy => haddrs ▸ hy
  obtain ⟨hall2, hm2⟩ := hw.link_three .all hnd hsub fun y hy => (hfresh y (hsub y hy)).all
  have hdata2 : ∀ {a o : Nat}, a ∈ (initArena first last).addrs → CHUNK.IsData o → _ :=
    fun ha ho => hw.relinked_word .all hsub hm2 ha ho.lt fun _ => ho.off .all
  generalize dlistInsertAfter Mem.links (dlistInsertAfter Mem.links m (first + CHUNK.all)
    (second + CHUNK.all)) (second + CHUNK.all) (last + CHUNK.all) = m2 at *
  simp only [nodup_cons, mem_cons, not_mem_nil, not_or, or_false] at hnd
  obtain ⟨⟨hfs, hfl⟩, hsl, -⟩ := hnd
  obtain ⟨hfm, hsm, hlm⟩ : first ∈ _ ∧ second ∈ _ ∧ last ∈ _ := by simpa using hsub
  have hclear : ∀ {a}, a ∈ (initArena first last).addrs → m2 (a + CHUNK.isUsed) = 0 := fun ha =>
    (hdata2 ha .isUsed).trans (hfresh _ ha).used
  obtain ⟨hw3, huf, hul, hss⟩ := hw.initFields m2 hfm hsm hlm (hclear hfm) (hclear hlm)
  generalize initFields m2 first second last = m3 at *
  have hlinks : ∀ {a o : Nat}, a ∈ (initArena first last).addrs → o < CHUNK.sizeof →
      CHUNK.OffData o → m3 (a + o) = m2 (a + o) := fun ha ho hoff =>
    hw3 ha ho (.inr (hoff _ .isUsed)) (.inr (hoff _ .size)) hfs (Ne.symm hsl)
  have hfree3 : ∀ {a}, a ∈ (initArena first last).addrs → RingAt m3 CHUNK.free a [] := by
    intro a ha
    have hone : ∀ x ∈ [a], x ∈ (initArena first last).addrs := by simpa using ha
    have hfree2 := hw.relinked_ring .all hsub hm2 .free CHUNK.all_ne_free.symm hone
      (hfresh a ha).free
    exact hfree2.congr_data .free fun x hx => hlinks (hone x hx)
  have hsub4 : ∀ y ∈ [second, first], y ∈ (initArena first last).addrs := by simp [hfm, hsm]
  have hfree4 := hw.insertAfter_head (a := first) (x := second) (l := []) .free
    (hfree3 hfm) (hfree3 hsm) (by simpa using Ne.symm hfs) hsub4
  have hm4 := (hfree3 hfm).insertAfter_relinked (hfree3 hsm) (d := first) mem_cons_self
  generalize dlistInsertAfter Mem.links m3 (first + CHUNK.free) (second + CHUNK.free) = m4 at *
  have hall3 : RingAt m3 _ _ _ := hall2.congr_data .all fun y hy => hlinks (haddrs ▸ hy)
  have hall4 := hw.relinked_ring .free hsub4 hm4 .all CHUNK.all_ne_free
    (fun y hy => haddrs ▸ hy) hall3
  have hdata4 : ∀ {a o : Nat}, a ∈ (initArena first last).addrs → CHUNK.IsData o →
      m4 (a + o) = m3 (a + o) := fun ha ho =>
    hw.relinked_word .free hsub4 hm4 ha ho.lt fun _ => ho.off .free
  -- a field that only `chunk_init` wrote
  have hdata : ∀ {a o : Nat}, a ∈ (initArena first last).addrs → CHUNK.IsData o →
      (a = second ∨ o ≠ CHUNK.isUsed) → (a ≠ second ∨ o ≠ CHUNK.size) →
      m4 (a + o) = m (a + o) := fun ha ho hused hsize =>
    ((hdata4 ha ho).trans (hw3 ha ho.lt hused hsize hfs (Ne.symm hsl))).trans (hdata2 ha ho)
  subst hsec
  refine ⟨hall4, hfree4, ?_, initArena_blocks ?_ ?_ ?_, initArena_blocks ?_ ?_ ?_⟩
  · intro b hb hu
    rw [mem_singleton.mp hb] at hu
    cases hu
  · exact (hdata hfm .size (.inr CHUNK.size_ne_isUsed) (.inl hfs)).trans (hfresh _ hfm).size
  · exact (hdata4 hsm .size).trans hss
  · exact (hdata hlm .size (.inr CHUNK.size_ne_isUsed) (.inl (Ne.symm hsl))).trans
      (hfresh _ hlm).size
  · exact (hdata4 hfm .isUsed).trans (huf hfl)
  · exact (hdata hsm .isUsed (.inl rfl) (.inr CHUNK.size_ne_isUsed.symm)).trans
      (hfresh _ hsm).used
  · exact (hdata4 hlm .isUsed).trans hul

/-- **`k_heapdl_mm_init` builds the arena of one free block**, and both
counters start at the bytes that it offers. -/
theorem kHeapdlMmInit_repr (mem : Mem) {memStart memEnd : Nat} (hend : memEnd < 2 ^ 32)
    (hroom : alignAddressToUpper memStart osHeapBlockSize + 3 * CHUNK.sizeof ≤
      alignAddressToLower memEnd osHeapBlockSize) :
    HeapRepr (kHeapdlMmInit mem memStart memEnd)
        (initArena (alignAddressToUpper memStart osHeapBlockSize)
          (alignAddressToLower memEnd osHeapBlockSize - CHUNK.sizeof)) ∧
      (kHeapdlMmInit mem memStart memEnd).memFree =
        (initArena (alignAddressToUpper memStart osHeapBlockSize)
          (alignAddressToLower memEnd osHeapBlockSize - CHUNK.sizeof)).freeBytes ∧
      (kHeapdlMmInit mem memStart memEnd).memAll =
        (kHeapdlMmInit mem memStart memEnd).memFree := by
  have hlow : alignAddressToLower memEnd osHeapBlockSize ≤ memEnd :=
    (alignAddressToLower_spec (by decide)).1
  have h32 : CHUNK.sizeof = 32 := rfl
  have hsecond : u32 (alignAddressToUpper memStart osHeapBlockSize + CHUNK.sizeof) =
      alignAddressToUpper memStart osHeapBlockSize + CHUNK.sizeof := u32_of_lt (by omega)
  have hlast : sub32 (alignAddressToLower memEnd osHeapBlockSize) CHUNK.sizeof =
      alignAddressToLower memEnd osHeapBlockSize - CHUNK.sizeof :=
    sub32_of_le (by omega) (by omega)
  simp only [kHeapdlMmInit, hsecond, hlast]
  generalize alignAddressToUpper memStart osHeapBlockSize = first at *
  generalize alignAddressToLower memEnd osHeapBlockSize = top at *
  generalize hl : top - CHUNK.sizeof = last at *
  have hw : (initArena first last).WF := initArena_wf (by omega) (by omega)
  have hsub : sub32 last (first + CHUNK.sizeof) = last - (first + CHUNK.sizeof) :=
    sub32_of_le (by omega) (by omega)
  have hsub' : sub32 (last - (first + CHUNK.sizeof)) alignedHeader =
      last - (first + CHUNK.sizeof) - CHUNK.sizeof := by
    rw [alignedHeader_eq, sub32_of_le (by omega) (by omega)]
  generalize hh : chunkInit (chunkInit (chunkInit ⟨mem, first, last, 0, 0, 0⟩ first)
    (first + CHUNK.sizeof)) last = h
  -- the three headers are apart, so the later stores keep the earlier ones
  have hfresh : ∀ a ∈ (initArena first last).addrs, Fresh h.mem a := by
    have haddrs : (initArena first last).addrs = [first, first + CHUNK.sizeof, last] := rfl
    simp only [haddrs, mem_cons, not_mem_nil, or_false, forall_eq_or_imp, forall_eq,
      ← hh]
    refine ⟨((chunkInit_fresh _ first).chunkInit (by omega)).chunkInit (by omega),
      (chunkInit_fresh _ _).chunkInit (by omega), chunkInit_fresh _ last⟩
  have hglobals : h.first = first ∧ h.last = last := by
    rw [← hh]
    exact ⟨rfl, rfl⟩
  have hholds := initArena_holds hw rfl hfresh
  have hsize := hholds.size ⟨first + CHUNK.sizeof, last - (first + CHUNK.sizeof), false⟩
    (by simp [initArena, Arena.blocks])
  unfold initFields at hholds hsize
  have hbytes : (initArena first last).freeBytes = last - (first + CHUNK.sizeof) - CHUNK.sizeof :=
    rfl
  simp only [Heapdl.onMem, Heapdl.set, hsub, hsize, hsub', hbytes, and_self, and_true]
  exact ⟨hglobals.1, hglobals.2, rfl, hw, hholds⟩

end Init

/-! ## Payloads -/

/-- The `n` bytes at `p` are in the payload of a block in use. -/
def Arena.Owns (A : Arena) (p n : Nat) : Prop :=
  ∃ b ∈ A.inUse, p = b.addr + CHUNK.sizeof ∧ CHUNK.sizeof + n ≤ b.size

section Owns

variable {h : Heapdl} {A : Arena} {p q n k c w v : Nat}

theorem Arena.Owns.off_header (ho : A.Owns p n) (hw : A.WF) (hc : c ∈ A.addrs) :
    p + n ≤ c ∨ c + CHUNK.sizeof ≤ p := by
  obtain ⟨b, hb, rfl, hsz⟩ := ho
  have hsep := hw.sep_block (Arena.mem_inUse.mp hb).1 hc
  omega

/-- Neither of two payloads meets the header in front of the other. -/
theorem Arena.Owns.disjoint (ho : A.Owns p n) (ho' : A.Owns q k) (hw : A.WF) (hne : p ≠ q) :
    p + n ≤ q ∨ q + k ≤ p := by
  have ⟨b, hb, hpb, _⟩ := ho
  have ⟨b', hb', hqb, _⟩ := ho'
  have h₁ := ho.off_header hw (Arena.mem_addrs (Arena.mem_inUse.mp hb').1)
  have h₂ := ho'.off_header hw (Arena.mem_addrs (Arena.mem_inUse.mp hb).1)
  omega

theorem Arena.Owns.top (ho : A.Owns p n) (hw : A.WF) : p + n < 2 ^ 32 := by
  obtain ⟨b, hb, rfl, hsz⟩ := ho
  have hend := hw.end_le (Arena.mem_inUse.mp hb).1
  omega

theorem Arena.Owns.aligned (ho : A.Owns p n) (hal : ∀ a ∈ A.addrs, osMemoryAlign ∣ a) :
    osMemoryAlign ∣ p := by
  obtain ⟨b, hb, rfl, -⟩ := ho
  exact Nat.dvd_add (hal b.addr (Arena.mem_addrs (Arena.mem_inUse.mp hb).1)) (by decide)

/-- A memory that differs off all headers. -/
theorem HeapRepr.congr_off (hr : HeapRepr h A) {m : Mem}
    (hm : ∀ w, (∃ a ∈ A.addrs, a ≤ w ∧ w < a + CHUNK.sizeof) → m w = h.mem w) :
    HeapRepr { h with mem := m } A := by
  refine { hr with holds := hr.holds.congr hr.wf fun {a o} ha ho => hm _ ⟨a, ha, ?_⟩ }
  omega

/-- A store into a payload. -/
theorem HeapRepr.store (hr : HeapRepr h A) (ho : A.Owns p n) (hlo : p ≤ w) (hhi : w < p + n) :
    HeapRepr { h with mem := h.mem.write w v } A := by
  refine hr.congr_off fun w' hw' => Mem.write_other _ _ fun heq => ?_
  obtain ⟨a, ha, hle, hlt⟩ := hw'
  have hoff := ho.off_header hr.wf ha
  omega

end Owns

end UnagiOs
