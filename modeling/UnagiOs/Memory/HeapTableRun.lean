import Mathlib.Data.List.Pairwise
import UnagiOs.Theory.Machine
import UnagiOs.Memory.HeapTable

/-!
# Histories of the heap table

Callers take blocks from a new heap and give them back. The blocks of an allocation start at
the last entry of the run that the search has counted, so for more than one block the entries
that are marked are not the entries that were counted: the last of them and the ones that
follow. `heapTable_exact` says when this goes well: whenever a request for `n` blocks finds a
run, the lowest one must go on to `2 * n - 1` free entries in the table.
-/

namespace UnagiOs

open TableHeap

/-- What a caller holds. -/
structure Allocation where
  ptr : Nat
  size : Nat
  deriving DecidableEq, Repr

/-- The blocks that the caller may use. -/
def Allocation.Has (a : Allocation) (h : TableHeap) (i : Nat) : Prop :=
  heapAddressToBlock h a.ptr ≤ i ∧ i < heapAddressToBlock h a.ptr + blocksOf a.size
  deriving Decidable

structure TableRun where
  heap : TableHeap
  live : List Allocation

inductive TableOp where
  | malloc (size : Nat)
  | free (ptr : Nat)
  deriving DecidableEq, Repr

namespace TableRun

def step (r : TableRun) : TableOp → Option TableRun
  | .malloc size =>
    let ptr := (heapMalloc r.heap size).2
    some { heap := (heapMalloc r.heap size).1
           live := if ptr = 0 then r.live else ⟨ptr, size⟩ :: r.live }
  | .free ptr => some { heap := heapFree r.heap ptr, live := r.live.filter (·.ptr ≠ ptr) }

/-- Sizes are 32-bit and positive, and what is freed is live. -/
def Legal (r : TableRun) : TableOp → Prop
  | .malloc size => 1 ≤ size ∧ size < 2 ^ 32
  | .free ptr => ∃ a ∈ r.live, a.ptr = ptr

instance decidableLegal (r : TableRun) : ∀ op, Decidable (r.Legal op)
  | .malloc _ => inferInstanceAs (Decidable (_ ∧ _))
  | .free _ => inferInstanceAs (Decidable (∃ a ∈ r.live, _))

/-- No two live allocations share a block. -/
def Disjoint (r : TableRun) : Prop :=
  r.live.Pairwise fun a b => ∀ i, a.Has r.heap i → ¬ b.Has r.heap i

/-- What `heap_malloc` returns covers blocks of the table that were free. -/
def FromFree (r : TableRun) : TableOp → Prop
  | .malloc size =>
    let ptr := (heapMalloc r.heap size).2
    ptr ≠ 0 → ∀ i, (⟨ptr, size⟩ : Allocation).Has r.heap i →
      i < r.heap.table.totalBlocks ∧ r.heap.isTaken i = false
  | .free _ => True

/-- The call takes free blocks of the table, and writes no entry outside the table. -/
def Sound (r : TableRun) (op : TableOp) (r' : TableRun) : Prop :=
  r.FromFree op ∧ ∀ i, r.heap.table.totalBlocks ≤ i → r'.heap.entry i = r.heap.entry i

/-- If the request for `n` blocks finds a run, the lowest one is `2 * n - 1` entries long. -/
def Roomy (r : TableRun) : TableOp → Prop
  | .malloc size =>
    size ≤ 2 ^ 32 - hblockSize → ∀ s, IsLeast {s | r.heap.FreeRun (blocksOf size) s} s →
      r.heap.FreeRun (2 * blocksOf size - 1) s
  | .free _ => True

end TableRun

def tableMachine : Machine TableRun TableOp := ⟨TableRun.step⟩

/-- A region that can be managed: whole blocks of the address space, and `NULL` is none of
them. -/
structure HeapRegion (heapStart heapEnd : Nat) : Prop where
  startAligned : heapStart % hblockSize = 0
  endAligned : heapEnd % hblockSize = 0
  pos : 0 < heapStart
  le : heapStart ≤ heapEnd
  bounded : heapEnd < 2 ^ 32

/-! ## The invariant -/

/-- The live allocations have blocks of their own in the table, marked as taken. -/
structure TableInv (r : TableRun) : Prop where
  pos : 0 < r.heap.startAddr
  bounded : r.heap.startAddr + r.heap.table.totalBlocks * hblockSize < 2 ^ 32
  nonempty : ∀ a ∈ r.live, 0 < a.size
  has : ∀ a ∈ r.live, ∀ i, a.Has r.heap i →
    i < r.heap.table.totalBlocks ∧ r.heap.isTaken i = true
  disjoint : r.Disjoint

namespace TableInv

variable {r : TableRun}

theorem addressable (hr : TableInv r) : r.heap.Addressable := by
  have hbounded := hr.bounded
  simp only [Addressable]
  omega

theorem block_lt (hr : TableInv r) {b : Nat} (hb : b < r.heap.table.totalBlocks) :
    heapAddressToBlock r.heap (heapBlockToAddress r.heap b) = b ∧
      heapBlockToAddress r.heap b ≠ 0 := by
  have hpos := hr.pos
  have hbounded := hr.bounded
  constructor
  · refine heapAddressToBlock_heapBlockToAddress ?_
    simp only [hblockSize] at hbounded ⊢
    omega
  · simp only [heapBlockToAddress, u32, hblockSize] at hbounded ⊢
    omega

/-- An allocation of blocks that are free: it is disjoint from the live ones, and they stay as
they are. -/
theorem take (hr : TableInv r) {size b : Nat} (hsize : 0 < size)
    (hend : b + blocksOf size ≤ r.heap.table.totalBlocks)
    (hfree : ∀ i, b ≤ i → i < b + blocksOf size → r.heap.isTaken i = false) :
    TableInv { heap := heapMarkBlocksTaken r.heap b (blocksOf size)
               live := ⟨heapBlockToAddress r.heap b, size⟩ :: r.live } := by
  have hn := blocksOf_pos hsize
  have htotal := hr.addressable.lt
  have hblock := (hr.block_lt (b := b) (by omega)).1
  have htaken := fun i (hi : b ≤ i ∧ i < b + blocksOf size) =>
    isTaken_heapMarkBlocksTaken (h := r.heap) hn (by omega) hi
  have hkeep : ∀ i, r.heap.isTaken i = true →
      (heapMarkBlocksTaken r.heap b (blocksOf size)).isTaken i = true := by
    intro i hi
    by_cases hin : b ≤ i ∧ i < b + blocksOf size
    · exact htaken i hin
    · rw [isTaken, entry_heapMarkBlocksTaken_of_not hn (by omega) hin]
      exact hi
  have hhas : ∀ i, (⟨heapBlockToAddress r.heap b, size⟩ : Allocation).Has r.heap i ↔
      b ≤ i ∧ i < b + blocksOf size := by
    intro i
    rw [Allocation.Has, hblock]
  refine
    { pos := hr.pos
      bounded := hr.bounded
      nonempty := List.forall_mem_cons.mpr ⟨hsize, hr.nonempty⟩
      has := List.forall_mem_cons.mpr ⟨fun i hi => ?_, fun a ha i hi => ?_⟩
      disjoint := List.pairwise_cons.mpr ⟨fun a ha i hi hai => ?_, hr.disjoint⟩ }
  · have hin := (hhas i).mp hi
    exact ⟨by have := hin.2; show i < r.heap.table.totalBlocks; omega, htaken i hin⟩
  · obtain ⟨hlt, hold⟩ := hr.has a ha i hi
    exact ⟨hlt, hkeep i hold⟩
  · -- a block of a live allocation is taken, and these were free
    have hin := (hhas i).mp hi
    have hold := (hr.has a ha i hai).2
    rw [hfree i hin.1 hin.2] at hold
    exact Bool.false_ne_true hold

/-- `heap_free` changes at most the first entry of the allocation. -/
theorem entry_heapFree {h : TableHeap} {ptr i : Nat} (hi : i ≠ heapAddressToBlock h ptr) :
    (heapFree h ptr).entry i = h.entry i := by
  rw [heapFree]
  by_cases hbit : h.entry (heapAddressToBlock h ptr) &&& 0b1 ≠ .free
  · rw [entry_heapMarkBlocksFree hbit, if_neg hi]
  · rw [heapMarkBlocksFree, if_neg hbit]

theorem heapFree_fixed (h : TableHeap) (ptr : Nat) :
    (heapFree h ptr).startAddr = h.startAddr ∧
      (heapFree h ptr).table.totalBlocks = h.table.totalBlocks := by
  unfold heapFree heapMarkBlocksFree
  split <;> exact ⟨rfl, rfl⟩

/-- The blocks of a live allocation are free again, and those of the others are not touched. -/
theorem free (hr : TableInv r) {a : Allocation} (ha : a ∈ r.live) :
    TableInv { heap := heapFree r.heap a.ptr, live := r.live.filter (·.ptr ≠ a.ptr) } ∧
      ∀ i, r.heap.table.totalBlocks ≤ i →
        (heapFree r.heap a.ptr).entry i = r.heap.entry i := by
  obtain ⟨hstart, htotal⟩ := heapFree_fixed r.heap a.ptr
  have hfirst : a.Has r.heap (heapAddressToBlock r.heap a.ptr) :=
    ⟨Nat.le_refl _, Nat.lt_add_of_pos_right (blocksOf_pos (hr.nonempty a ha))⟩
  have hblock : ∀ p,
      heapAddressToBlock (heapFree r.heap a.ptr) p = heapAddressToBlock r.heap p := by
    intro p
    rw [heapAddressToBlock, hstart, heapAddressToBlock]
  have hhas : ∀ (c : Allocation) i, c.Has (heapFree r.heap a.ptr) i ↔ c.Has r.heap i := by
    intro c i
    rw [Allocation.Has, hblock, Allocation.Has]
  have hsymm : Std.Symm fun a b : Allocation => ∀ i, a.Has r.heap i → ¬ b.Has r.heap i :=
    ⟨fun _ _ hab i hb ha => hab i ha hb⟩
  -- another live allocation does not have the first block of this one
  have hother : ∀ c ∈ r.live, c.ptr ≠ a.ptr → ¬ c.Has r.heap (heapAddressToBlock r.heap a.ptr) := by
    intro c hc hne hcb
    exact hr.disjoint.forall ha hc (fun heq => hne (heq ▸ rfl)) _ hfirst hcb
  have hlive : ∀ c ∈ r.live.filter (·.ptr ≠ a.ptr), c ∈ r.live ∧ c.ptr ≠ a.ptr := by
    intro c hc
    simpa using hc
  constructor
  · refine
      { pos := hstart ▸ hr.pos
        bounded := by rw [hstart, htotal]; exact hr.bounded
        nonempty := fun c hc => hr.nonempty c (hlive c hc).1
        has := fun c hc i hi => ?_
        disjoint := ?_ }
    · obtain ⟨hc, hne⟩ := hlive c hc
      have hi' := (hhas c i).mp hi
      obtain ⟨hlt, htaken⟩ := hr.has c hc i hi'
      refine ⟨htotal ▸ hlt, ?_⟩
      rw [isTaken, entry_heapFree fun heq => hother c hc hne (heq ▸ hi')]
      exact htaken
    · refine (hr.disjoint.filter _).imp fun hab i hi => ?_
      rw [hhas] at hi ⊢
      exact hab i hi
  · intro i hi
    refine entry_heapFree fun heq => ?_
    have hlt := (hr.has a ha _ hfirst).1
    omega

/-- One request, with what it is to do. -/
theorem step (hr : TableInv r) {op : TableOp} (hlegal : r.Legal op) (hroomy : r.Roomy op) :
    ∃ r', tableMachine.step r op = some r' ∧ r.Sound op r' ∧ TableInv r' := by
  cases op with
  | malloc size =>
    refine ⟨_, rfl, ?_⟩
    have hn := blocksOf_pos hlegal.1
    have hspec := heapMalloc_spec hr.addressable hlegal.1 hlegal.2
    simp only [TableRun.Sound, TableRun.FromFree]
    generalize heapMalloc r.heap size = ans at hspec
    cases hspec with
    | null => exact ⟨⟨fun h => absurd rfl h, fun i _ => rfl⟩, hr⟩
    | @marked s hleast hsize =>
      have hrun : IsRun _ _ _ (2 * blocksOf size - 1) s := hroomy hsize s hleast
      have hend := hrun.le_hi
      have htotal := hr.addressable.lt
      obtain ⟨hblock, hne⟩ := hr.block_lt (b := s + blocksOf size - 1) (by omega)
      have hinv := hr.take (b := s + blocksOf size - 1) hlegal.1 (by omega)
        fun i hi hlt => hrun.clear i (by omega) (by omega)
      refine ⟨⟨fun _ i hi => ?_, fun i hi => ?_⟩, ?_⟩
      · obtain ⟨hge, hlt⟩ : s + blocksOf size - 1 ≤ i ∧
            i < s + blocksOf size - 1 + blocksOf size := by
          rw [Allocation.Has, hblock] at hi
          exact hi
        exact ⟨by omega, hrun.clear i (by omega) (by omega)⟩
      · exact entry_heapMarkBlocksTaken_of_not hn (by omega) (by omega)
      · dsimp only
        rw [if_neg hne]
        exact hinv
  | free ptr =>
    obtain ⟨a, ha, rfl⟩ := hlegal
    obtain ⟨hinv, hout⟩ := hr.free ha
    exact ⟨_, rfl, ⟨trivial, hout⟩, hinv⟩

/-- A request that is not roomy gets blocks that were not free, or are not in the table. -/
theorem not_sound (hr : TableInv r) {op : TableOp} (hlegal : r.Legal op) (hroomy : ¬ r.Roomy op)
    {r' : TableRun} : ¬ r.Sound op r' := by
  rintro ⟨hfrom, -⟩
  cases op with
  | free ptr => exact hroomy trivial
  | malloc size =>
    refine hroomy fun hsize s hleast => ?_
    have hn := blocksOf_pos hlegal.1
    have hspec := heapMalloc_spec hr.addressable hlegal.1 hlegal.2
    simp only [TableRun.FromFree] at hfrom
    generalize heapMalloc r.heap size = ans at hspec hfrom
    cases hspec with
    | null hnone => exact absurd ⟨s, hleast.1⟩ (hnone.resolve_left (by omega))
    | @marked t hleast' _ =>
      obtain rfl : t = s := Nat.le_antisymm (hleast'.2 hleast.1) (hleast.2 hleast'.1)
      have hrun : IsRun _ _ _ (blocksOf size) t := hleast.1
      have hend := hrun.le_hi
      obtain ⟨hblock, hne⟩ := hr.block_lt (b := t + blocksOf size - 1) (by omega)
      have hhas : ∀ i, t + blocksOf size - 1 ≤ i → i < t + blocksOf size - 1 + blocksOf size →
          i < r.heap.table.totalBlocks ∧ r.heap.isTaken i = false := by
        intro i hi hlt
        refine hfrom hne i ?_
        rw [Allocation.Has, hblock]
        exact ⟨hi, hlt⟩
      have hlast := (hhas (t + (2 * blocksOf size - 1) - 1) (by omega) (by omega)).1
      refine ⟨Nat.zero_le t, by omega, fun f hf hlt => ?_⟩
      by_cases hlow : f < t + blocksOf size
      · exact hrun.clear f hf hlow
      · exact (hhas f (by omega) (by omega)).2

/-- A table that `heap_create` accepts has no block taken. -/
theorem start {heap h : TableHeap} {heapStart heapEnd : Nat} {table : HeapTable} {res : Int}
    (hregion : HeapRegion heapStart heapEnd)
    (hcreate : heapCreate heap heapStart heapEnd table = (h, res)) (hres : res = 0) :
    TableInv ⟨h, []⟩ := by
  have halign : (!heapValidateAlignment heapStart || !heapValidateAlignment heapEnd) = false := by
    simp [heapValidateAlignment, hregion.startAligned, hregion.endAligned]
  have hsize : sub32 heapEnd heapStart = heapEnd - heapStart :=
    sub32_of_le hregion.le hregion.bounded
  have hbounded := hregion.bounded
  have hle := hregion.le
  rw [heapCreate, if_neg (Bool.eq_false_iff.mp halign)] at hcreate
  simp only [heapValidateTable, hsize] at hcreate
  split at hcreate
  · cases hcreate
    exact absurd hres (by decide)
  · next htotal =>
    cases hcreate
    have hdiv : table.totalBlocks * hblockSize ≤ heapEnd - heapStart := by
      rw [not_not.mp htotal]
      exact Nat.div_mul_le_self _ _
    refine
      { pos := hregion.pos
        bounded := ?_
        nonempty := fun _ ha => absurd ha List.not_mem_nil
        has := fun _ ha => absurd ha List.not_mem_nil
        disjoint := .nil }
    show heapStart + table.totalBlocks * hblockSize < 2 ^ 32
    omega

end TableInv

/-! ## Result -/

/-- **When the heap table is sound**: along every history of a new heap, each non-null result
covers free blocks of the table, the live allocations are disjoint and no entry outside the
table is written, if and only if every request is roomy. -/
theorem heapTable_exact {heap h : TableHeap} {heapStart heapEnd : Nat} {table : HeapTable}
    (hregion : HeapRegion heapStart heapEnd)
    (hcreate : heapCreate heap heapStart heapEnd table = (h, 0)) {ops : List TableOp}
    (hlegal : tableMachine.AllSteps TableRun.Legal ⟨h, []⟩ ops) :
    tableMachine.Always TableRun.Disjoint TableRun.Sound ⟨h, []⟩ ops ↔
      tableMachine.AllSteps TableRun.Roomy ⟨h, []⟩ ops := by
  have hgood : ∀ r op, TableInv r → r.Legal op → r.Roomy op →
      ∃ r', tableMachine.step r op = some r' ∧ r.Sound op r' ∧ TableInv r' :=
    fun r op hr hleg hok => hr.step hleg hok
  refine Machine.always_iff (fun r hr => TableInv.disjoint hr) hgood ?_
    (TableInv.start hregion hcreate rfl) hlegal
  intro r op r' hr hleg hok _ hsound _
  exact hr.not_sound hleg hok hsound

theorem heapTable_exact_fourBlocks :
    let ops := [.malloc 8192, .malloc 100, .free 0x1000, .malloc 4096]
    tableMachine.AllSteps TableRun.Legal ⟨fourBlocks, []⟩ ops ∧
      (tableMachine.Always TableRun.Disjoint TableRun.Sound ⟨fourBlocks, []⟩ ops ↔
        tableMachine.AllSteps TableRun.Roomy ⟨fourBlocks, []⟩ ops) := by
  have hregion : HeapRegion 0x1000 0x5000 :=
    ⟨by decide, by decide, by decide, by decide, by decide⟩
  have hlegal : tableMachine.AllSteps TableRun.Legal ⟨fourBlocks, []⟩
      [.malloc 8192, .malloc 100, .free 0x1000, .malloc 4096] := by decide +kernel
  have hcreate : heapCreate ⟨⟨fun _ => 0, 0⟩, 0⟩ 0x1000 0x5000 ⟨fun _ => 0xff, 4⟩ =
    (fourBlocks, 0) := rfl
  exact ⟨hlegal, heapTable_exact hregion hcreate hlegal⟩

/-- Two free blocks before a taken one: the request for two blocks gets the second of them and
the taken one. -/
theorem heapTable_overlap :
    let ops := [.malloc 4096, .malloc 4096, .malloc 4096, .free 0x1000, .free 0x2000, .malloc 8192]
    tableMachine.AllSteps TableRun.Legal ⟨fourBlocks, []⟩ ops ∧
      ∃ r, tableMachine.run ⟨fourBlocks, []⟩ ops = some r ∧
        ∃ a ∈ r.live, ∃ b ∈ r.live, a ≠ b ∧ a.Has r.heap 2 ∧ b.Has r.heap 2 :=
  ⟨by decide +kernel, Machine.exists_run_of_any (by decide +kernel)⟩

end UnagiOs
