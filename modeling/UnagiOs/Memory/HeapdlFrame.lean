import UnagiOs.Memory.HeapdlRun

/-!
# What the heap functions leave alone

`HeapRepr.malloc` and `HeapRepr.free` say which arena a call leaves behind; here is what it does
to the rest of the memory. The functions of heapdl.c write link and size words of headers, the
`isUsed` word of one chunk and, when they slice, one new header. So every other word stays
(`malloc_frame`, `free_frame`): the words of all payloads, and the `isUsed` words of all chunks
but one.
-/

namespace UnagiOs

open Links List

namespace Arena

variable {A : Arena} {w f : Nat} {a : Nat} {A' : Arena}

/-- Not a link word and not a size word of any header. -/
def OffFields (A : Arena) (w : Nat) : Prop :=
  ∀ a ∈ A.addrs, ∀ o ∈ [CHUNK.all, CHUNK.all + 4, CHUNK.size, CHUNK.free, CHUNK.free + 4],
    w ≠ a + o

theorem field_lt {o : Nat}
    (ho : o ∈ [CHUNK.all, CHUNK.all + 4, CHUNK.size, CHUNK.free, CHUNK.free + 4]) :
    o < CHUNK.sizeof ∧ o ≠ CHUNK.isUsed := by
  simp only [mem_cons, not_mem_nil, or_false] at ho
  rcases ho with rfl | rfl | rfl | rfl | rfl <;> decide

/-- Neither is it a link of a node in any header. -/
theorem OffFields.node (hw : A.OffFields w) (hf : CHUNK.IsNode f) {F : List Nat}
    (hF : ∀ a ∈ F, a ∈ A.addrs) : Mem.OffLinks (fun y => y ∈ F.map (· + f)) w := by
  intro y hy
  obtain ⟨a, ha, rfl⟩ := mem_map.mp hy
  cases hf with
  | all => exact ⟨hw a (hF a ha) CHUNK.all (by simp), hw a (hF a ha) (CHUNK.all + 4) (by simp)⟩
  | free => exact ⟨hw a (hF a ha) CHUNK.free (by simp), hw a (hF a ha) (CHUNK.free + 4) (by simp)⟩

theorem OffFields.size (hw : A.OffFields w) (ha : a ∈ A.addrs) : w ≠ a + CHUNK.size :=
  hw a ha CHUNK.size (by simp)

theorem OffFields.mono (hw : A.OffFields w) (hsub : ∀ a ∈ A'.addrs, a ∈ A.addrs) : A'.OffFields w :=
  fun a ha => hw a (hsub a ha)

/-- A word off the headers that are new. -/
theorem OffFields.of_new (hw : A.OffFields w)
    (hnew : ∀ a ∈ A'.addrs, a ∈ A.addrs ∨ w < a ∨ a + CHUNK.sizeof ≤ w) : A'.OffFields w := by
  intro a ha o ho
  have hlt := (field_lt ho).1
  rcases hnew a ha with hold | hoff
  · exact hw a hold o ho
  · omega

/-- A word off all headers. -/
theorem offFields_of_off (hw : ∀ a ∈ A.addrs, w < a ∨ a + CHUNK.sizeof ≤ w) : A.OffFields w := by
  intro a ha o ho
  have hlt := (field_lt ho).1
  have hoff := hw a ha
  omega

/-- An `isUsed` word. -/
theorem WF.offFields_isUsed (h : A.WF) (ha : a ∈ A.addrs) : A.OffFields (a + CHUNK.isUsed) := by
  intro a' ha' o ho heq
  have hlt := field_lt ho
  exact hlt.2 (h.addr_off ha ha' CHUNK.IsData.isUsed.lt hlt.1 heq).2.symm

end Arena

section Frame

variable {h : Heapdl} {A : Arena} {pre post : List Block} {c : Block} {f₁ f₂ : List Nat}
  {s w : Nat}

theorem HeapRepr.engage_word (hr : HeapRepr h A) (hc : c.addr ∈ A.free) (hw : A.OffFields w)
    (hne : w ≠ c.addr + CHUNK.isUsed) : (chunkEngage h c.addr).mem w = h.mem w := by
  have hring := hr.wf.ringAt_write (v := h.mem (c.addr + CHUNK.isUsed) / 256 * 256 + 1)
    (hr.wf.free_subset hc) .isUsed .free hr.wf.free_ring_subset hr.holds.free
  have hrem := hring.remove_relinked (mem_cons_of_mem _ hc) w
    (hw.node .free hr.wf.free_ring_subset)
  exact hrem.trans (Mem.write_other _ _ hne)

section Slice

variable {x : Nat} (hr : HeapRepr h A) (hmid : A.mid = pre ++ c :: post)
  (hfree : A.free = f₁ ++ c.addr :: f₂) (hc : c.used = false)
  (hsz : CHUNK.sizeof + s + CHUNK.sizeof ≤ c.size) (hx : x = c.addr + (CHUNK.sizeof + s))
include hr hmid hsz hx

/-- The memory of a slice before the new header is linked in: off that header only two size
words have changed. -/
theorem HeapRepr.slice_fields :
    ∃ m, (chunkSlice h c.addr s).mem = dlistInsertAfter Mem.links
        (dlistInsertAfter Mem.links m (c.addr + CHUNK.all) (x + CHUNK.all))
        (c.addr + CHUNK.free) (x + CHUNK.free) ∧
      RingAt m CHUNK.all x [] ∧ RingAt m CHUNK.free x [] ∧
      ∀ w, w ≠ c.addr + CHUNK.size → (w < x ∨ x + CHUNK.sizeof ≤ w) → m w = h.mem w := by
  have hcm := Arena.mem_mid hmid
  have hend := hr.wf.end_le hcm
  have hB : u32 (chunkCalcFreeOffset c.addr + s) = x := by
    rw [hr.freeOffset hcm, u32_of_lt (by omega)]
    omega
  have hfresh := chunkInit_fresh h x
  -- what the two size words are does not matter here
  have hwrite : ∀ (v v' : Nat) {o : Nat}, o ≠ CHUNK.size →
      ((chunkInit h x).mem.write (x + CHUNK.size) v).write (c.addr + CHUNK.size) v' (x + o) =
        (chunkInit h x).mem (x + o) := by
    intro v v' o ho
    rw [Mem.write_other _ _ (by simp only [CHUNK.sizeof, CHUNK.size] at *; omega),
      Mem.write_other _ _ (by omega)]
  obtain ⟨v, v', heq⟩ : ∃ v v', (chunkSlice h c.addr s).mem = dlistInsertAfter Mem.links
      (dlistInsertAfter Mem.links
        (((chunkInit h x).mem.write (x + CHUNK.size) v).write (c.addr + CHUNK.size) v')
        (c.addr + CHUNK.all) (x + CHUNK.all)) (c.addr + CHUNK.free) (x + CHUNK.free) := by
    simp only [chunkSlice, Heapdl.onMem, Heapdl.set, hB]
    exact ⟨_, _, rfl⟩
  obtain ⟨hall, hall'⟩ := CHUNK.IsNode.all.offData
  obtain ⟨hfree, hfree'⟩ := CHUNK.IsNode.free.offData
  refine ⟨_, heq,
    hfresh.all.congr_alone (hwrite v v' (hall _ .size)) (hwrite v v' (hall' _ .size)),
    hfresh.free.congr_alone (hwrite v v' (hfree _ .size)) (hwrite v v' (hfree' _ .size)),
    fun w hne hoff => ?_⟩
  rw [Mem.write_other _ _ hne, Mem.write_other _ _ ?_]
  · exact chunkInit_off h hoff
  · simp only [CHUNK.sizeof, CHUNK.size] at *
    omega

include hfree hc

/-- `chunk_slice` writes the new header, and in the others links and sizes only. -/
theorem HeapRepr.slice_word (hw : A.OffFields w) (hoff : w < x ∨ x + CHUNK.sizeof ≤ w) :
    (chunkSlice h c.addr s).mem w = h.mem w := by
  have hcm := Arena.mem_mid hmid
  have hca := Arena.mem_addrs hcm
  obtain ⟨m, heq, hxa, hxf, hkeep⟩ := hr.slice_fields hmid hsz hx
  -- the links of the old headers
  have hlinks : ∀ {a o : Nat}, a ∈ A.addrs → o < CHUNK.sizeof → CHUNK.OffData o →
      m (a + o) = h.mem (a + o) := by
    intro a o ha ho hne
    have hsep := hr.wf.sep_block hcm ha
    refine hkeep _ (fun he => hne _ .size (hr.wf.addr_off ha hca ho CHUNK.IsData.size.lt he).2) ?_
    omega
  have hwf' := Arena.wf_step hr.wf (.split hmid hfree hc hsz)
  rw [Arena.cut, ← hx] at hwf'
  obtain ⟨-, -, m₁, hm₁, hm₂⟩ := Arena.link_split hr.wf hmid hfree hwf' rfl hxa hxf
    (hr.holds.all.congr_data .all fun y hy => hlinks (A.all_ring_subset y hy))
    (hr.holds.free.congr_data .free fun y hy => hlinks (hr.wf.free_ring_subset y hy))
  have hoffs : ∀ {f : Nat} {F : List Nat}, CHUNK.IsNode f → (∀ a ∈ F, a ∈ A.addrs) →
      Mem.OffLinks (fun y => y ∈ (x :: F).map (· + f)) w := by
    intro f F hf hF
    have hlt := hf.lt
    have hnew : w ≠ x + f ∧ w ≠ x + f + 4 := by omega
    exact forall_mem_cons.mpr ⟨hnew, hw.node hf hF⟩
  rw [heq, hm₂ w (hoffs .free hr.wf.free_ring_subset), hm₁ w (hoffs .all A.all_ring_subset)]
  exact hkeep w (hw.size hca) hoff

end Slice

theorem HeapRepr.merge_word (hr : HeapRepr h A) {b : Block} (hmid : A.mid = pre ++ b :: c :: post)
    (hfree : A.free = f₁ ++ c.addr :: f₂) (hw : A.OffFields w) :
    (chunkMerge h b.addr c.addr).mem w = h.mem w := by
  have hba : b.addr ∈ A.addrs := Arena.mem_addrs (Arena.mem_mid hmid)
  obtain ⟨m₁, hm₁, hm₂⟩ := Arena.unlink_relinked hr.wf hr.holds (c := c) (by rw [hmid]; simp)
    (by rw [hfree]; simp)
  exact (Mem.write_other _ _ (hw.size hba)).trans
    ((hm₂ w (hw.node .free hr.wf.free_ring_subset)).trans (hm₁ w (hw.node .all A.all_ring_subset)))

/-- `chunk_free` clears the `isUsed` word of the chunk, and then writes link and size words
only. -/
theorem HeapRepr.chunkFree_word (hr : HeapRepr h A) (hmid : A.mid = pre ++ c :: post)
    (hu : c.used = true) (hw : A.OffFields w) :
    (UnagiOs.chunkFree h c.addr).mem w = (clearUsed h c).mem w := by
  have hc := Arena.mem_mid hmid
  obtain ⟨hring, halone, -, hsub⟩ := hr.relink_nodes hmid hu
  have hnodes := hw.node .free hsub
  -- the release moves no header
  have hsame : ∀ free', Arena.OffFields
      { A with mid := pre ++ { c with used := false } :: post, free := free' } w := by
    refine fun free' => hw.mono fun a ha => ?_
    rw [Arena.addrs_eq] at ha ⊢
    rw [hmid]
    simpa using ha
  obtain ⟨b, hb, hprev, hbc, -, hbpre⟩ := hr.holds.prev_block hr.wf hmid
  obtain ⟨b', hb', hnext, hbc', -, hbpost⟩ := hr.holds.next_block hr.wf hmid
  rw [hr.chunkFree_eq hc hb hb' hprev hnext hbc hbc']
  split
  next hbu =>
    obtain ⟨pre', rfl⟩ := hbpre.resolve_left (by simp [hbu])
    have hbm : b ∈ A.mid := by rw [hmid]; simp
    have hbf := hr.wf.mem_free.mpr ⟨b, hbm, rfl, hbu⟩
    obtain ⟨f₁, f₂, hfree⟩ := append_of_mem hbf
    have hmid' : pre' ++ [b] ++ { c with used := false } :: post =
        pre' ++ b :: { c with used := false } :: post := by simp
    have hfree' : f₁ ++ b.addr :: c.addr :: f₂ = (f₁ ++ [b.addr]) ++ c.addr :: f₂ := by simp
    have hr₁ := hr.relink_after hmid hu hfree
    exact (hr₁.merge_word (c := { c with used := false }) hmid' hfree' (hsame _)).trans
      (hring.insertAfter_relinked halone (mem_cons_of_mem _ hbf) w hnodes)
  next hbu =>
    split
    next hbu' =>
      obtain ⟨post', rfl⟩ := hbpost.resolve_left (by simp [hbu'])
      have hbm : b' ∈ A.mid := by rw [hmid]; simp
      have hbf := hr.wf.mem_free.mpr ⟨b', hbm, rfl, hbu'⟩
      obtain ⟨f₁, f₂, hfree⟩ := append_of_mem hbf
      have hfree' : f₁ ++ c.addr :: b'.addr :: f₂ = (f₁ ++ [c.addr]) ++ b'.addr :: f₂ := by simp
      have hr₁ := hr.relink_before hmid hu hfree
      exact (hr₁.merge_word (b := { c with used := false }) rfl hfree' (hsame _)).trans
        (hring.insertBefore_relinked halone (mem_cons_of_mem _ hbf) w hnodes)
    next hbu' => exact hring.insertAfter_relinked halone mem_cons_self w hnodes

/-- **`k_heapdl_mm_free` of a block in use** clears its `isUsed` word and leaves alone what is
neither a link nor a size word. -/
theorem HeapRepr.free_frame (hr : HeapRepr h A) (hmid : A.mid = pre ++ c :: post)
    (hu : c.used = true) (hw : A.OffFields w) :
    (kHeapdlMmFree h (c.addr + CHUNK.sizeof)).mem w =
      if w = c.addr + CHUNK.isUsed then 0 else h.mem w := by
  rw [hr.free_eq (Arena.mem_mid hmid) hu]
  exact hr.chunkFree_word hmid hu hw

/-- What a request for `s` bytes leaves alone: all headers stay headers, with at most one new one,
and a word that is neither a link nor a size word, nor in the new header, nor the `isUsed` word of
the chunk, stays as it was. -/
structure Kept (h h' : Heapdl) (A A' : Arena) (s chunk : Nat) : Prop where
  addrs : ∀ a ∈ A.addrs, a ∈ A'.addrs
  new : ∀ a ∈ A'.addrs, a ∈ A.addrs ∨ takesWhole h s = false ∧ a = chunk + (CHUNK.sizeof + s)
  word : ∀ w, A.OffFields w → (∀ a ∈ A'.addrs, a ∈ A.addrs ∨ w < a ∨ a + CHUNK.sizeof ≤ w) →
    w ≠ chunk + CHUNK.isUsed → h'.mem w = h.mem w

/-- **`k_heapdl_mm_malloc` that hands out a chunk** sets its `isUsed` word, may write a new header
into it, and leaves alone what is neither a link nor a size word. -/
theorem HeapRepr.malloc_frame (hr : HeapRepr h A) {h' : Heapdl} {A' : Arena} {a : Nat}
    (heq : kHeapdlMmMalloc h s = some (h', a + CHUNK.sizeof)) (hr' : HeapRepr h' A') :
    Kept h h' A A' s a := by
  have haddrs : ∀ {A₁ : Arena}, HeapRepr h' A₁ → A'.addrs = A₁.addrs :=
    fun h₁ => hr'.chunks_eq.symm.trans h₁.chunks_eq
  rcases hr.malloc_cases s with ⟨hnull, -⟩ | ⟨pre, c, post, f₁, f₂, hmid, hfree, hu, -, hw | hw⟩
  · rw [hnull] at heq
    simp only [Option.some.injEq, Prod.mk.injEq] at heq
    have : 0 < CHUNK.sizeof := by decide
    omega
  · have hcf : c.addr ∈ A.free := by rw [hfree]; simp
    rw [hw.2] at heq
    simp only [Option.some.injEq, Prod.mk.injEq, Nat.add_right_cancel_iff] at heq
    obtain ⟨rfl, rfl⟩ := heq
    have hA' : A'.addrs = A.addrs := by
      rw [haddrs (hr.engage hmid hfree hu).1, Arena.addrs_eq, Arena.addrs_eq, hmid]
      simp
    exact ⟨fun a ha => hA' ▸ ha, fun a ha => .inl (hA' ▸ ha),
      fun w hoff _ hne => hr.engage_word hcf hoff hne⟩
  · obtain ⟨htw, hroom, hval⟩ := hw
    rw [hval] at heq
    simp only [Option.some.injEq, Prod.mk.injEq, Nat.add_right_cancel_iff] at heq
    obtain ⟨rfl, rfl⟩ := heq
    have hcm := Arena.mem_mid hmid
    obtain ⟨hr₁, -⟩ := hr.slice hmid hfree hu hroom
    have hA' := haddrs (hr₁.engage rfl rfl rfl).1
    have hmem : ∀ {a : Nat}, a ∈ A'.addrs ↔ a ∈ A.addrs ∨ a = c.addr + (CHUNK.sizeof + s) := by
      intro a
      rw [hA', Arena.addrs_eq, Arena.addrs_eq, hmid]
      simp only [mem_cons, mem_append, map_append, map_cons]
      tauto
    refine ⟨fun a ha => hmem.mpr (.inl ha),
      fun a ha => (hmem.mp ha).imp_right fun heq => ⟨htw, heq⟩, fun w hoff hnew hne => ?_⟩
    · -- the new header is none of the old ones, so `w` is off it
      have hB : c.addr + (CHUNK.sizeof + s) ∈ A'.addrs := hmem.mpr (.inr rfl)
      have hBnew : c.addr + (CHUNK.sizeof + s) ∉ A.addrs := by
        intro hmem
        have hsep := hr.wf.sep_block hcm hmem
        have : 0 < CHUNK.sizeof := by decide
        omega
      have hwB := (hnew _ hB).resolve_left hBnew
      have hoff₁ : (A.cut pre c post f₁ f₂ s).OffFields w := by
        refine hoff.of_new fun a ha => hnew a ?_
        rw [hA']
        rw [Arena.addrs_eq] at ha ⊢
        simpa [Arena.cut] using ha
      exact (hr₁.engage_word (by simp [Arena.cut]) hoff₁ hne).trans
        (hr.slice_word hmid hfree hu hroom rfl hoff hwB)

end Frame

end UnagiOs
