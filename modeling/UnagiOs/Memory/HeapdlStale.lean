import UnagiOs.Memory.HeapdlFit
import UnagiOs.Memory.HeapdlFrame

/-!
# Pointers that are returned twice

The comment on `k_heapdl_mm_free` promises that it can be called several times. Its guard is the
byte `isUsed` in front of the payload, and that byte is the heap's only as long as a header is
there: once the chunk has been merged into a neighbour, the byte is part of a payload.

- `StaleRun` is a history that remembers the pointers that are *stale*: handed out, returned
  since, and not handed out again.
- `stale_free_unchanged`: as long as no caller writes a nonzero byte over the flag of a stale
  pointer, and no header is cut over it that is not the chunk's own, a release of a stale pointer
  changes nothing.
-/

namespace UnagiOs

open Links List

/-! ## Histories with stale pointers -/

/-- A history of the heap and its stale pointers. -/
structure StaleRun where
  run : HeapRun
  stale : List Nat

/-- What was live or stale, and is not live now. -/
def StaleRun.staleAfter (t : StaleRun) (r : HeapRun) : List Nat :=
  (t.run.live.map Prod.fst ++ t.stale).filter fun p => p ∉ r.live.map Prod.fst

/-- The heap, with its stale pointers kept beside it. -/
def staleMachine : Machine StaleRun HeapOp where
  step t op := ((heapMachine kHeapdlMmMalloc kHeapdlMmFree).step t.run op).map fun r =>
    ⟨r, t.staleAfter r⟩

/-- The state after `k_heapdl_mm_init`. -/
def staleStart (mem : Mem) (memStart memEnd : Nat) : StaleRun :=
  ⟨heapStart mem memStart memEnd, []⟩

/-- Callers may also return a stale pointer. -/
def HeapOp.LegalStale (t : StaleRun) : HeapOp → Prop
  | .malloc s => HeapOp.Legal (2 ^ 32 - 1) t.run (.malloc s)
  | .free p => HeapOp.Legal (2 ^ 32 - 1) t.run (.free p) ∨ p ∈ t.stale
  | .store w v => HeapOp.Legal (2 ^ 32 - 1) t.run (.store w v)

instance HeapOp.decidableLegalStale (t : StaleRun) : ∀ op : HeapOp, Decidable (op.LegalStale t)
  | .malloc s => HeapOp.decidableLegal (2 ^ 32 - 1) t.run (.malloc s)
  | .free p => inferInstanceAs (Decidable (HeapOp.Legal (2 ^ 32 - 1) t.run (.free p) ∨ p ∈ t.stale))
  | .store w v => HeapOp.decidableLegal (2 ^ 32 - 1) t.run (.store w v)

/-- The byte that a release of `p` looks at. -/
def flagOf (p : Nat) : Nat := chunkCalcChunkByPtr p + CHUNK.isUsed

/-- A header at `c` is that of the chunk of `p`, or it is off the flag of `p`. -/
def HeaderClear (c p : Nat) : Prop :=
  c = chunkCalcChunkByPtr p ∨ flagOf p < c ∨ c + CHUNK.sizeof ≤ flagOf p

instance (c p : Nat) : Decidable (HeaderClear c p) :=
  inferInstanceAs (Decidable (_ ∨ _ ∨ _))

/-- The step puts nothing but zero over the flag of a stale pointer: a header that a request cuts
off behind its payload is clear of the flag, and of a word that a caller writes over it the byte
that lands there is zero. -/
def HeapOp.Harmless (t : StaleRun) : HeapOp → Prop
  | .malloc s => s ≤ t.run.heap.memFree ∧ t.run.heap.memFree ≠ 0 → takesWhole t.run.heap s = false →
      ∀ c ∈ t.run.heap.firstFit s, ∀ p ∈ t.stale, HeaderClear (c + (CHUNK.sizeof + s)) p
  | .free _ => True
  | .store w v => ∀ p ∈ t.stale, w ≤ flagOf p → flagOf p < w + 4 →
      (v >>> (8 * (flagOf p - w))) % 256 = 0

instance HeapOp.decidableHarmless (t : StaleRun) : ∀ op : HeapOp, Decidable (op.Harmless t)
  | .malloc _ => inferInstanceAs (Decidable (_ → _ → ∀ c ∈ _, ∀ p ∈ _, HeaderClear _ p))
  | .free _ => .isTrue trivial
  | .store _ _ => inferInstanceAs (Decidable (∀ p ∈ _, _ → _ → _))

/-- A release of a stale pointer changes nothing. -/
def StaleSafe (t : StaleRun) : Prop :=
  ∀ p ∈ t.stale, kHeapdlMmFree t.run.heap p = t.run.heap

/-! ## The invariant -/

/-- The chunk of a stale pointer: no header stands over its flag but its own, and the flag is
clear. -/
structure Dead (h : Heapdl) (A : Arena) (c : Nat) : Prop where
  top : c + CHUNK.sizeof < 2 ^ 32
  clear : ∀ a ∈ A.addrs, a = c ∨ c + CHUNK.isUsed < a ∨ a + CHUNK.sizeof ≤ c + CHUNK.isUsed
  flag : h.mem.isUsed c = false

/-- Every stale pointer is that of a dead chunk. -/
structure StaleInv (lo hi : Nat) (t : StaleRun) (A : Arena) : Prop where
  inv : HeapInv lo hi t.run A
  dead : ∀ p ∈ t.stale, ∃ c, p = c + CHUNK.sizeof ∧ Dead t.run.heap A c

section Dead

variable {h h' : Heapdl} {A A' : Arena} {c : Nat} {b e : Block} {s : Nat}

theorem Dead.free_eq (hd : Dead h A c) : kHeapdlMmFree h (c + CHUNK.sizeof) = h := by
  have hptr : c + CHUNK.sizeof ≠ 0 := Nat.succ_ne_zero _
  rw [kHeapdlMmFree, if_neg hptr]
  simp only [chunkCalcChunkByPtr_add hd.top]
  rw [hd.flag, if_neg Bool.false_ne_true]

theorem Dead.offFields (hd : Dead h A c) (hw : A.WF) : A.OffFields (c + CHUNK.isUsed) := by
  by_cases hc : c ∈ A.addrs
  · exact hw.offFields_isUsed hc
  · refine Arena.offFields_of_off fun a ha => ?_
    rcases hd.clear a ha with rfl | hoff | hoff
    · exact absurd ha hc
    · omega
    · omega

/-- A block in use is not dead. -/
theorem Dead.not_used (hd : Dead h A c) (hm : A.Holds h.mem) (hb : b ∈ A.blocks)
    (hu : b.used = true) : c ≠ b.addr := by
  rintro rfl
  have hflag := hm.isUsed hb
  rw [hd.flag, hu] at hflag
  cases hflag

/-- The only block that a request takes in use is the one it hands out. -/
theorem Took.used_blocks (ht : Took A A' s e) (hb : b ∈ A'.blocks) (hu : b.used = true) :
    b = e ∨ b ∈ A.blocks := by
  simp only [Arena.blocks, cons_append, mem_cons, mem_append, not_mem_nil,
    or_false] at hb
  rcases hb with rfl | hb | rfl
  · exact .inr (by simp [Arena.blocks, ht.first])
  · refine ((ht.inUse b).mp (Arena.mem_inUse.mpr ⟨hb, hu⟩)).imp_right fun hold => ?_
    exact Arena.mem_blocks (Arena.mem_inUse.mp hold).1
  · exact .inr (by simp [Arena.blocks, ht.last])

/-- A dead chunk stays dead while another block is handed out. -/
theorem Dead.took (hd : Dead h A c) (hr : HeapRepr h A) (hr' : HeapRepr h' A') (ht : Took A A' s e)
    (hk : Kept h h' A A' s e.addr) (hne : c ≠ e.addr) (hnew : takesWhole h s = false →
      e.addr + (CHUNK.sizeof + s) = c ∨ c + CHUNK.isUsed < e.addr + (CHUNK.sizeof + s) ∨
        e.addr + (CHUNK.sizeof + s) + CHUNK.sizeof ≤ c + CHUNK.isUsed) : Dead h' A' c := by
  have hclear : ∀ a ∈ A'.addrs,
      a = c ∨ c + CHUNK.isUsed < a ∨ a + CHUNK.sizeof ≤ c + CHUNK.isUsed := by
    intro a ha
    rcases hk.new a ha with hold | ⟨htw, rfl⟩
    · exact hd.clear a hold
    · exact hnew htw
  refine ⟨hd.top, hclear, ?_⟩
  by_cases hc : c ∈ A'.addrs
  · -- its header is an old free one or the new one; neither is in use
    obtain ⟨b, hb, rfl⟩ := mem_map.mp hc
    rw [hr'.holds.isUsed hb]
    cases hu : b.used with
    | false => rfl
    | true =>
      rcases ht.used_blocks hb hu with rfl | hold
      · exact absurd rfl hne
      · exact absurd rfl (hd.not_used hr.holds hold hu)
  · -- no header stands there at all
    have hc' : c ∉ A.addrs := fun hmem => hc (hk.addrs c hmem)
    rw [Mem.isUsed, hk.word _ (hd.offFields hr.wf) ?_ (by omega)]
    · exact hd.flag
    intro a ha
    rcases hclear a ha with rfl | hoff | hoff
    · exact absurd ha hc
    · exact .inr (.inl (by omega))
    · exact .inr (.inr hoff)

/-- A dead chunk stays dead, and the chunk itself dies, when a block is returned. -/
theorem Dead.freed {pre post : List Block} (hr : HeapRepr h A) (hmid : A.mid = pre ++ b :: post)
    (hu : b.used = true) (hf : Freed A A' b) (hd : c = b.addr ∨ Dead h A c) :
    Dead (kHeapdlMmFree h (b.addr + CHUNK.sizeof)) A' c := by
  have hb := Arena.mem_mid hmid
  have hclear : ∀ a ∈ A.addrs,
      a = c ∨ c + CHUNK.isUsed < a ∨ a + CHUNK.sizeof ≤ c + CHUNK.isUsed := by
    rcases hd with rfl | hd
    · intro a ha
      have hsep := hr.wf.addrs_sep ha (Arena.mem_addrs hb)
      simp only [CHUNK.isUsed, CHUNK.sizeof] at *
      omega
    · exact hd.clear
  have hoff : A.OffFields (c + CHUNK.isUsed) := by
    rcases hd with rfl | hd
    · exact hr.wf.offFields_isUsed (Arena.mem_addrs hb)
    · exact hd.offFields hr.wf
  refine ⟨?_, fun a ha => hclear a (hf.addrs a ha), ?_⟩
  · rcases hd with rfl | hd
    · have hend := hr.wf.end_le hb
      have hbig := hr.wf.big b hb
      omega
    · exact hd.top
  · rw [Mem.isUsed, hr.free_frame hmid hu hoff]
    split
    · rfl
    next hne =>
      rcases hd with rfl | hd
      · exact absurd rfl hne
      · exact hd.flag

theorem Dead.stored (hd : Dead h A c) {w v : Nat}
    (hv : w ≤ c + CHUNK.isUsed → c + CHUNK.isUsed < w + 4 →
      (v >>> (8 * (c + CHUNK.isUsed - w))) % 256 = 0) :
    Dead (h.onMem fun m => m.write w v) A c := by
  refine ⟨hd.top, hd.clear, ?_⟩
  by_cases hw : w = c + CHUNK.isUsed
  · -- the flag is the low byte of the word
    subst hw
    have hbyte := hv (Nat.le_refl _) (by omega)
    rw [Nat.sub_self, Nat.mul_zero, Nat.shiftRight_zero] at hbyte
    simp [Mem.isUsed, Heapdl.onMem, Mem.write_self, hbyte]
  · have hword : (h.mem.write w v) (c + CHUNK.isUsed) = h.mem (c + CHUNK.isUsed) :=
      Mem.write_other _ _ (Ne.symm hw)
    have hflag := hd.flag
    rwa [Mem.isUsed, ← hword] at hflag

end Dead

/-! ## One step -/

section Steps

variable {lo hi : Nat} {t : StaleRun} {A : Arena} {p : Nat} {r : HeapRun}

theorem mem_staleAfter : p ∈ t.staleAfter r ↔
    (p ∈ t.run.live.map Prod.fst ∨ p ∈ t.stale) ∧ p ∉ r.live.map Prod.fst := by
  rw [StaleRun.staleAfter, mem_filter, mem_append, decide_eq_true_iff]

theorem StaleInv.safe (ht : StaleInv lo hi t A) : StaleSafe t := by
  intro p hp
  obtain ⟨c, rfl, hd⟩ := ht.dead p hp
  exact hd.free_eq

theorem staleMachine_step {op : HeapOp}
    (hstep : (heapMachine kHeapdlMmMalloc kHeapdlMmFree).step t.run op = some r) :
    staleMachine.step t op = some ⟨r, t.staleAfter r⟩ := by
  simp only [staleMachine, hstep, Option.map_some]

/-- A step that does nothing. -/
theorem StaleInv.same (ht : StaleInv lo hi t A) : StaleInv lo hi ⟨t.run, t.staleAfter t.run⟩ A := by
  refine ⟨ht.inv, fun p hp => ht.dead p ?_⟩
  obtain ⟨hwas, hnot⟩ := mem_staleAfter.mp hp
  exact hwas.resolve_left hnot

/-- A harmless request leaves the dead chunks dead. -/
theorem StaleInv.malloc_step (ht : StaleInv lo hi t A) {s : Nat}
    (hok : HeapOp.Harmless t (.malloc s)) :
    ∃ t', staleMachine.step t (.malloc s) = some t' ∧ ∃ A', StaleInv lo hi t' A' := by
  have hr := ht.inv.repr
  rcases hr.malloc s with ⟨heq, -⟩ | ⟨h', A', e, heq, hr', htook, -⟩
  · have hstep : (heapMachine kHeapdlMmMalloc kHeapdlMmFree).step t.run (.malloc s) =
        some t.run := by
      simp only [heapMachine, heq, Option.map_some, if_true]
    exact ⟨_, staleMachine_step hstep, A, ht.same⟩
  · have hstep : (heapMachine kHeapdlMmMalloc kHeapdlMmFree).step t.run (.malloc s) =
        some ⟨h', (e.addr + CHUNK.sizeof, s) :: t.run.live⟩ := by
      simp only [heapMachine, heq, Option.map_some]
      rw [if_neg (show e.addr + CHUNK.sizeof ≠ 0 from Nat.succ_ne_zero _)]
    refine ⟨_, staleMachine_step hstep, A', ht.inv.took htook hr' (Nat.le_refl s), fun p hp => ?_⟩
    obtain ⟨hwas, hnot⟩ := mem_staleAfter.mp hp
    rw [map_cons, mem_cons, not_or] at hnot
    have hstale := hwas.resolve_left hnot.2
    obtain ⟨c, rfl, hd⟩ := ht.dead p hstale
    have hne : c ≠ e.addr := fun hce => hnot.1 (congrArg (· + CHUNK.sizeof) hce)
    refine ⟨c, rfl, hd.took hr hr' htook (hr.malloc_frame heq hr') hne fun htw => ?_⟩
    have hclear := hok (memFree_of_malloc heq) htw e.addr (hr.firstFit_of_malloc heq) _ hstale
    rwa [HeaderClear, flagOf, chunkCalcChunkByPtr_add hd.top] at hclear

/-- A pointer that was live and is not so after its release. -/
theorem eq_of_not_live {live : List (Nat × Nat)} {q : Nat} (hq : q ∈ live.map Prod.fst)
    (hnot : q ∉ (live.filter fun x => x.1 ≠ p).map Prod.fst) : q = p := by
  obtain ⟨x, hx, rfl⟩ := mem_map.mp hq
  by_contra hne
  exact hnot (mem_map_of_mem (mem_filter.mpr ⟨hx, decide_eq_true hne⟩))

/-- The pointer of a block that is freed is stale from then on. -/
theorem StaleInv.free_live (ht : StaleInv lo hi t A) (hp : p ∈ t.run.live.map Prod.fst) :
    ∃ t', staleMachine.step t (.free p) = some t' ∧ ∃ A', StaleInv lo hi t' A' := by
  obtain ⟨A', hinv', hrel, -⟩ := ht.inv.free_step (.inr hp)
  refine ⟨_, staleMachine_step rfl, A', hinv', fun q hq => ?_⟩
  obtain ⟨hwas, hnot⟩ := mem_staleAfter.mp hq
  cases hrel with
  | null hzero _ =>
    obtain ⟨x, hx, rfl⟩ := mem_map.mp hp
    obtain ⟨b, -, hxb, -⟩ := ht.inv.live x hx
    exact absurd (hxb.symm.trans hzero) (Nat.succ_ne_zero _)
  | block pre post c hpc hmid hu hfreed _ =>
    rw [hpc] at hnot ⊢
    rcases hwas with hlive | hstale
    · exact ⟨c.addr, eq_of_not_live hlive hnot,
        Dead.freed ht.inv.repr hmid hu hfreed (.inl rfl)⟩
    · obtain ⟨d, rfl, hd⟩ := ht.dead q hstale
      exact ⟨d, rfl, Dead.freed ht.inv.repr hmid hu hfreed (.inr hd)⟩

/-- A release of nothing, of a live block, or of a stale pointer. -/
theorem StaleInv.free_step (ht : StaleInv lo hi t A)
    (hp : (p = 0 ∨ p ∈ t.run.live.map Prod.fst) ∨ p ∈ t.stale) :
    ∃ t', staleMachine.step t (.free p) = some t' ∧ ∃ A', StaleInv lo hi t' A' := by
  by_cases hlive : p ∈ t.run.live.map Prod.fst
  · exact ht.free_live hlive
  · have hsame : kHeapdlMmFree t.run.heap p = t.run.heap := by
      rcases hp with (rfl | hp) | hp
      · exact if_pos rfl
      · exact absurd hp hlive
      · exact ht.safe p hp
    have hkeep : t.run.live.filter (fun x => x.1 ≠ p) = t.run.live := by
      refine filter_eq_self.mpr fun x hx => decide_eq_true fun heq => hlive ?_
      exact mem_map.mpr ⟨x, hx, heq⟩
    have hstep : (heapMachine kHeapdlMmMalloc kHeapdlMmFree).step t.run (.free p) =
        some t.run := by
      simp only [heapMachine, hsame, hkeep]
    exact ⟨_, staleMachine_step hstep, A, ht.same⟩

theorem StaleInv.store_step (ht : StaleInv lo hi t A) {w v : Nat}
    (hl : ∃ x ∈ t.run.live, x.1 ≤ w ∧ w + 4 ≤ x.1 + x.2)
    (hok : HeapOp.Harmless t (.store w v)) :
    ∃ t', staleMachine.step t (.store w v) = some t' ∧ ∃ A', StaleInv lo hi t' A' := by
  refine ⟨_, rfl, A, ht.inv.stored hl, fun p hp => ?_⟩
  obtain ⟨hwas, hnot⟩ := mem_staleAfter.mp hp
  have hstale := hwas.resolve_left hnot
  obtain ⟨c, rfl, hd⟩ := ht.dead p hstale
  refine ⟨c, rfl, hd.stored ?_⟩
  have hflag := hok _ hstale
  rwa [flagOf, chunkCalcChunkByPtr_add hd.top] at hflag

end Steps

/-! ## Whole histories -/

/-- **A release of a stale pointer changes nothing**, in every state of a history in which nothing
but zero is put over the flags of stale pointers. -/
theorem stale_free_unchanged (mem : Mem) {memStart memEnd : Nat} (hend : memEnd < 2 ^ 32)
    (hroom : alignAddressToUpper memStart osHeapBlockSize + 3 * CHUNK.sizeof ≤
      alignAddressToLower memEnd osHeapBlockSize) {ops : List HeapOp}
    (hlegal : staleMachine.AllSteps (fun t op => op.LegalStale t)
      (staleStart mem memStart memEnd) ops)
    (hharmless : staleMachine.AllSteps (fun t op => op.Harmless t)
      (staleStart mem memStart memEnd) ops) :
    staleMachine.AllStates StaleSafe (staleStart mem memStart memEnd) ops := by
  refine Machine.always_of_inv (fun t (ht : ∃ A, StaleInv _ _ t A) => ?_) ?_
    ⟨_, HeapInv.start mem hend hroom, fun p hp => by cases hp⟩ (hlegal.and hharmless)
  · obtain ⟨A, hinv⟩ := ht
    exact hinv.safe
  · rintro t op ⟨A, hinv⟩ ⟨hop, hok⟩
    cases op with
    | malloc s =>
      obtain ⟨t', hstep, hinv'⟩ := hinv.malloc_step hok
      exact ⟨t', hstep, trivial, hinv'⟩
    | free p =>
      obtain ⟨t', hstep, hinv'⟩ := hinv.free_step hop
      exact ⟨t', hstep, trivial, hinv'⟩
    | store w v =>
      obtain ⟨t', hstep, hinv'⟩ := hinv.store_step hop hok
      exact ⟨t', hstep, trivial, hinv'⟩

/-- Two blocks are returned and merged, and one block that covers both is handed out. Its holder
writes 0x100 over the flag of the second one, which leaves the byte itself clear, and the second
pointer is returned again. -/
theorem stale_free_unchanged_seven_blocks :
    staleMachine.AllStates StaleSafe (staleStart (fun _ => 0) 0x1000 0x8000)
      [.malloc 96, .malloc 96, .free 4160, .free 4288, .malloc 200, .store 4264 0x100,
        .free 4288] :=
  stale_free_unchanged (fun _ => 0) (by decide) (by decide) (by decide +kernel) (by decide +kernel)

/-- The same history, but the holder writes 1 where the flag of the second block was. Its header is
gone, and the links left there point to itself: a release of the stale pointer merges the block
with itself and counts its 128 bytes, which are in use, as free. -/
theorem stale_free_counts_payload :
    staleMachine.AllSteps (fun t op => op.LegalStale t) (staleStart (fun _ => 0) 0x1000 0x8000)
        [.malloc 96, .malloc 96, .free 4160, .free 4288, .malloc 200, .store 4264 1] ∧
      ∃ t, staleMachine.run (staleStart (fun _ => 0) 0x1000 0x8000)
          [.malloc 96, .malloc 96, .free 4160, .free 4288, .malloc 200, .store 4264 1] = some t ∧
        (4288 ∈ t.stale ∧ (4160, 200) ∈ t.run.live ∧
          t.run.heap.memFree = 28288 ∧ (kHeapdlMmFree t.run.heap 4288).memFree = 28416) := by
  refine ⟨by decide +kernel, Machine.exists_run_of_any ?_⟩
  decide +kernel

end UnagiOs
