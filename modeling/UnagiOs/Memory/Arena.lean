import Mathlib.Algebra.BigOperators.Group.List.Basic
import UnagiOs.Memory.Heapdl

/-!
# Arenas: what the chunk heap is for

The abstract allocator. An `Arena` is a span of addresses cut into blocks that
tile it, framed by two header-sized sentinels, with the free blocks listed in
the order in which they will be tried. Four moves (`Arena.Step`) change it:
split a free block, engage one, release one, merge two neighbours. Every move
keeps `Arena.WF` (`wf_step`).

`Arena.Holds m A` reads the arena in memory: the `all` ring runs through the
blocks by address, the `free` ring through the free list, and the `size` and
`isUsed` words are those of the blocks. Headers of different blocks do not
overlap (`WF.addr_off`), which is all the frame reasoning below uses.
-/

namespace UnagiOs

open List

/-- A chunk: its header address, its size with the header, and its use. -/
structure Block where
  addr : Nat
  size : Nat
  used : Bool
deriving DecidableEq, Repr

/-- The blocks tile the addresses from `a` up to `z`, without gap or overlap. -/
def Tiles : Nat → List Block → Nat → Prop
  | a, [], z => a = z
  | a, b :: l, z => b.addr = a ∧ Tiles (a + b.size) l z

theorem tiles_append {l₁ l₂ : List Block} {a z : Nat} :
    Tiles a (l₁ ++ l₂) z ↔ ∃ m, Tiles a l₁ m ∧ Tiles m l₂ z := by
  induction l₁ generalizing a with
  | nil => simp [Tiles]
  | cons b l ih =>
    simp only [cons_append, Tiles, ih]
    exact ⟨fun ⟨h, m, h₁, h₂⟩ => ⟨m, ⟨h, h₁⟩, h₂⟩, fun ⟨m, ⟨h, h₁⟩, h₂⟩ => ⟨h, m, h₁, h₂⟩⟩

/-- Tiles lie between the two ends. -/
theorem Tiles.bounds {l : List Block} {a z : Nat} (h : Tiles a l z) :
    a ≤ z ∧ ∀ b ∈ l, a ≤ b.addr ∧ b.addr + b.size ≤ z := by
  induction l generalizing a with
  | nil => exact ⟨Nat.le_of_eq h, by simp⟩
  | cons c l ih =>
    obtain ⟨hle, hb⟩ := ih h.2
    refine ⟨by omega, fun b hmem => ?_⟩
    rcases mem_cons.mp hmem with rfl | hmem
    · have := h.1
      omega
    · have := hb b hmem
      omega

/-- An earlier tile ends before a later one starts. -/
theorem Tiles.pairwise {l : List Block} {a z : Nat} (h : Tiles a l z) :
    l.Pairwise fun b b' => b.addr + b.size ≤ b'.addr := by
  induction l generalizing a with
  | nil => exact List.Pairwise.nil
  | cons c l ih =>
    refine List.Pairwise.cons (fun b hb => ?_) (ih h.2)
    have h1 := h.1
    have h2 := (h.2.bounds.2 b hb).1
    omega

/-- Replacing a stretch of tiles by another one of the same span. -/
theorem Tiles.replace (pre seg seg' post : List Block) {a z : Nat}
    (h : Tiles a (pre ++ (seg ++ post)) z)
    (hs : ∀ x y, Tiles x seg y → Tiles x seg' y) : Tiles a (pre ++ (seg' ++ post)) z := by
  obtain ⟨x, hpre, h⟩ := tiles_append.mp h
  obtain ⟨y, hseg, hpost⟩ := tiles_append.mp h
  exact tiles_append.mpr ⟨x, hpre, tiles_append.mpr ⟨y, hs x y hseg, hpost⟩⟩

/-- The blocks of a heap between its two sentinels, and its free list. -/
structure Arena where
  first : Nat
  mid : List Block
  last : Nat
  free : List Nat

namespace Arena

variable {b c : Block} {a a' : Nat} {free' : List Nat}

/-- All blocks by address, the sentinels included. -/
def blocks (A : Arena) : List Block :=
  ⟨A.first, CHUNK.sizeof, true⟩ :: A.mid ++ [⟨A.last, CHUNK.sizeof, true⟩]

/-- All header addresses in order. -/
def addrs (A : Arena) : List Nat := A.blocks.map Block.addr

/-- The blocks not in use. -/
def unused (A : Arena) : List Block := A.mid.filter fun b => !b.used

/-- Well-formed: the blocks tile the span, each has room for its header, and
the free list holds exactly the blocks not in use, each once. -/
structure WF (A : Arena) : Prop where
  tiles : Tiles (A.first + CHUNK.sizeof) A.mid A.last
  big : ∀ b ∈ A.mid, CHUNK.sizeof ≤ b.size
  top : A.last + CHUNK.sizeof < 2 ^ 32
  free_perm : A.free.Perm (A.unused.map Block.addr)

/-- The blocks in use. -/
def inUse (A : Arena) : List Block := A.mid.filter Block.used

/-- Which blocks are in use, by address. -/
def flags (A : Arena) : List Bool := A.mid.map Block.used

/-- Bytes that the free blocks offer, their headers not counted. -/
def freeBytes (A : Arena) : Nat :=
  (A.unused.map fun b => b.size - CHUNK.sizeof).sum

/-- The arena with a free block cut in two behind its first `s` bytes; the second half is tried
right after the first. -/
def cut (A : Arena) (pre : List Block) (c : Block) (post : List Block) (f₁ f₂ : List Nat)
    (s : Nat) : Arena :=
  { A with
    mid := pre ++ ⟨c.addr, CHUNK.sizeof + s, false⟩ ::
      ⟨c.addr + (CHUNK.sizeof + s), c.size - (CHUNK.sizeof + s), false⟩ :: post
    free := f₁ ++ c.addr :: (c.addr + (CHUNK.sizeof + s)) :: f₂ }

/-- The moves of the abstract allocator. -/
inductive Step : Arena → Arena → Prop where
  /-- Cut a free block in two. -/
  | split {A : Arena} {pre post : List Block} {c : Block} {f₁ f₂ : List Nat} {s : Nat} :
      A.mid = pre ++ c :: post → A.free = f₁ ++ c.addr :: f₂ → c.used = false →
      CHUNK.sizeof + s + CHUNK.sizeof ≤ c.size → Step A (A.cut pre c post f₁ f₂ s)
  /-- Put a free block to use. -/
  | engage {A : Arena} {pre post : List Block} {c : Block} {f₁ f₂ : List Nat} :
      A.mid = pre ++ c :: post → A.free = f₁ ++ c.addr :: f₂ → c.used = false →
      Step A { A with mid := pre ++ { c with used := true } :: post, free := f₁ ++ f₂ }
  /-- Return a used block, at any place of the free list. -/
  | release {A : Arena} {pre post : List Block} {c : Block} {f₁ f₂ : List Nat} :
      A.mid = pre ++ c :: post → A.free = f₁ ++ f₂ → c.used = true →
      Step A { A with
        mid := pre ++ { c with used := false } :: post, free := f₁ ++ c.addr :: f₂ }
  /-- Give a free block to the free block before it. -/
  | merge {A : Arena} {pre post : List Block} {b c : Block} {f₁ f₂ : List Nat} :
      A.mid = pre ++ b :: c :: post → A.free = f₁ ++ c.addr :: f₂ → b.used = false →
      c.used = false →
      Step A { A with
        mid := pre ++ { b with size := b.size + c.size } :: post, free := f₁ ++ f₂ }

/-! ## Separation of headers -/

variable {A : Arena}

theorem mem_mid {pre post : List Block} (hmid : A.mid = pre ++ b :: post) : b ∈ A.mid := by
  rw [hmid]
  exact mem_append_right _ mem_cons_self

theorem mem_blocks (hb : b ∈ A.mid) : b ∈ A.blocks := by
  simp [blocks, hb]

theorem mem_addrs (hb : b ∈ A.mid) : b.addr ∈ A.addrs :=
  mem_map_of_mem (mem_blocks hb)

/-- The sentinels are in use, so an unused block is none of them. -/
theorem mem_mid_of_unused (hb : b ∈ A.blocks) (hu : b.used = false) : b ∈ A.mid := by
  simp only [blocks, cons_append, mem_cons, mem_append, not_mem_nil,
    or_false] at hb
  rcases hb with rfl | hb | rfl
  · cases hu
  · exact hb
  · cases hu

theorem first_mem_addrs (A : Arena) : A.first ∈ A.addrs := by simp [addrs, blocks]

theorem addrs_eq (A : Arena) : A.addrs = A.first :: (A.mid.map Block.addr ++ [A.last]) := by
  simp [addrs, blocks]

/-- The members of the ring of all chunks. -/
theorem all_ring_subset (A : Arena) :
    ∀ y ∈ A.first :: (A.mid.map Block.addr ++ [A.last]), y ∈ A.addrs := by
  intro y hy
  rw [addrs_eq]
  exact hy

section Separation

variable (h : A.WF)
include h

/-- The blocks with their sentinels tile the whole region. -/
theorem WF.tiles_blocks : Tiles A.first A.blocks (A.last + CHUNK.sizeof) := by
  refine ⟨rfl, ?_⟩
  exact tiles_append.mpr ⟨A.last, h.tiles, rfl, rfl⟩

theorem WF.big_blocks (hb : b ∈ A.blocks) : CHUNK.sizeof ≤ b.size := by
  simp only [blocks, cons_append, mem_cons, mem_append, not_mem_nil,
    or_false] at hb
  rcases hb with rfl | hb | rfl
  · exact Nat.le_refl _
  · exact h.big b hb
  · exact Nat.le_refl _

/-- Headers are a header apart. -/
theorem WF.addrs_pairwise : A.addrs.Pairwise fun a a' => a + CHUNK.sizeof ≤ a' := by
  refine pairwise_map.mpr (h.tiles_blocks.pairwise.imp_of_mem ?_)
  intro b b' hb _ hle
  have := h.big_blocks hb
  omega

theorem WF.addrs_nodup : A.addrs.Nodup := by
  refine h.addrs_pairwise.imp ?_
  intro a a' hle
  have : 0 < CHUNK.sizeof := by decide
  omega

theorem WF.addrs_sep (ha : a ∈ A.addrs) (ha' : a' ∈ A.addrs) (hne : a ≠ a') :
    a + CHUNK.sizeof ≤ a' ∨ a' + CHUNK.sizeof ≤ a := by
  obtain ⟨l₁, l₂, hl⟩ := append_of_mem ha
  have hpw := h.addrs_pairwise
  rw [hl, pairwise_append, pairwise_cons] at hpw
  rw [hl, mem_append, mem_cons] at ha'
  rcases ha' with hm | rfl | hm
  · exact Or.inr (hpw.2.2 a' hm a mem_cons_self)
  · exact absurd rfl hne
  · exact Or.inl (hpw.2.1.1 a' hm)

/-- A word of a header belongs to one block and is at one offset. -/
theorem WF.addr_off {o o' : Nat} (ha : a ∈ A.addrs) (ha' : a' ∈ A.addrs) (ho : o < CHUNK.sizeof)
    (ho' : o' < CHUNK.sizeof) (heq : a + o = a' + o') : a = a' ∧ o = o' := by
  by_cases hne : a = a'
  · exact ⟨hne, by omega⟩
  · have hsep := h.addrs_sep ha ha' hne
    omega

/-- A header is the header of the block or lies off the block. -/
theorem WF.sep_block (hc : c ∈ A.mid) (ha : a ∈ A.addrs) :
    a = c.addr ∨ a + CHUNK.sizeof ≤ c.addr ∨ c.addr + c.size ≤ a := by
  obtain ⟨b, hb, rfl⟩ := mem_map.mp ha
  obtain ⟨l₁, l₂, hl⟩ := append_of_mem (mem_blocks hc)
  have hpw := h.tiles_blocks.pairwise
  have hbig := h.big_blocks hb
  rw [hl, pairwise_append, pairwise_cons] at hpw
  rw [hl, mem_append, mem_cons] at hb
  rcases hb with hm | rfl | hm
  · have := hpw.2.2 b hm c mem_cons_self
    omega
  · exact .inl rfl
  · exact .inr (.inr (hpw.2.1.1 b hm))

/-! ## The moves keep the arena well formed -/

theorem WF.mid_nodup : (A.mid.map Block.addr).Nodup := by
  have := h.addrs_nodup
  rw [addrs_eq] at this
  exact (nodup_append.mp (nodup_cons.mp this).2).1

theorem WF.free_nodup : A.free.Nodup :=
  h.free_perm.nodup_iff.mpr (h.mid_nodup.sublist (filter_sublist.map _))

theorem WF.mem_free : a ∈ A.free ↔ ∃ b ∈ A.mid, b.addr = a ∧ b.used = false := by
  rw [h.free_perm.mem_iff, mem_map]
  simp only [unused, mem_filter, Bool.not_eq_true']
  exact ⟨fun ⟨b, hb, ha⟩ => ⟨b, hb.1, ha, hb.2⟩, fun ⟨b, hb, ha, hu⟩ => ⟨b, ⟨hb, hu⟩, ha⟩⟩

theorem WF.free_subset (ha : a ∈ A.free) : a ∈ A.addrs := by
  obtain ⟨b, hb, rfl, -⟩ := h.mem_free.mp ha
  exact mem_addrs hb

/-- Blocks that share their address are one block. -/
theorem WF.eq_of_addr {b' : Block} (hb : b ∈ A.mid) (hb' : b' ∈ A.mid) (heq : b.addr = b'.addr) :
    b = b' :=
  inj_on_of_nodup_map h.mid_nodup hb hb' heq

end Separation

/-- Two lists with a common member are permutations iff they are without it. -/
theorem perm_middle_iff {α : Type} {a : α} {f₁ f₂ g₁ g₂ : List α} :
    (f₁ ++ a :: f₂).Perm (g₁ ++ a :: g₂) ↔ (f₁ ++ f₂).Perm (g₁ ++ g₂) := by
  rw [perm_middle.congr_left, perm_middle.congr_right, perm_cons]

/-- Replacing a stretch of blocks by blocks of the same span, with a free list
to match. -/
theorem WF.replace (h : A.WF) (pre seg seg' post : List Block) (hmid : A.mid = pre ++ (seg ++ post))
    (ht : ∀ x y, Tiles x seg y → Tiles x seg' y)
    (hb : (∀ b ∈ seg, CHUNK.sizeof ≤ b.size) → ∀ b ∈ seg', CHUNK.sizeof ≤ b.size)
    (hf : free'.Perm (((pre ++ (seg' ++ post)).filter fun b => !b.used).map Block.addr)) :
    WF { A with mid := pre ++ (seg' ++ post), free := free' } := by
  have htiles := h.tiles
  have hbig := h.big
  rw [hmid] at htiles hbig
  refine ⟨htiles.replace pre seg seg' post ht, fun b hmem => ?_, h.top, hf⟩
  rcases mem_append.mp hmem with hm | hm
  · exact hbig b (mem_append_left _ hm)
  · rcases mem_append.mp hm with hm | hm
    · refine hb (fun b hm => hbig b ?_) b hm
      exact mem_append_right _ (mem_append_left _ hm)
    · exact hbig b (mem_append_right _ (mem_append_right _ hm))

/-- One block is put to use or out of use. -/
theorem WF.reuse (h : A.WF) {pre post : List Block} (v : Bool) (hmid : A.mid = pre ++ c :: post)
    (hf : free'.Perm (((pre ++ { c with used := v } :: post).filter fun b => !b.used).map
      Block.addr)) : WF { A with mid := pre ++ { c with used := v } :: post, free := free' } := by
  refine h.replace pre [c] [{ c with used := v }] post hmid (fun _ _ ht => ht) ?_ hf
  intro hb b hm
  rw [mem_singleton.mp hm]
  exact hb c (mem_singleton_self c)

/-- **Every move keeps the arena well formed.** -/
theorem wf_step {A' : Arena} (h : A.WF) (hs : Step A A') : A'.WF := by
  -- the blocks are replaced by blocks with the same bounds; the rest is the free list
  have hperm := h.free_perm
  cases hs with
  | @split pre post c f₁ f₂ s hmid hfree hc hsz =>
    rw [unused, hmid, hfree] at hperm
    refine h.replace pre [c] [⟨c.addr, CHUNK.sizeof + s, false⟩,
      ⟨c.addr + (CHUNK.sizeof + s), c.size - (CHUNK.sizeof + s), false⟩] post hmid ?_ ?_ ?_
    · rintro x y ⟨rfl, rfl⟩
      refine ⟨rfl, rfl, ?_⟩
      show c.addr + (CHUNK.sizeof + s) + (c.size - (CHUNK.sizeof + s)) = c.addr + c.size
      omega
    · intro _ b hb
      simp only [mem_cons, not_mem_nil, or_false] at hb
      rcases hb with rfl | rfl
      · exact Nat.le_add_right _ _
      · exact Nat.le_sub_of_add_le (by omega)
    · simp only [filter_append, filter_cons, filter_nil, Bool.not_false, if_true,
        map_append, map_cons, map_nil, hc] at hperm ⊢
      exact perm_middle_iff.mpr (perm_middle_iff.mpr (perm_middle_iff.mp hperm))
  | @engage pre post c f₁ f₂ hmid hfree hc =>
    rw [unused, hmid, hfree] at hperm
    refine h.reuse true hmid ?_
    simp only [filter_append, filter_cons, Bool.not_false, Bool.not_true, if_true,
      map_append, map_cons, hc, Bool.false_eq_true, if_false] at hperm ⊢
    exact perm_middle_iff.mp hperm
  | @release pre post c f₁ f₂ hmid hfree hc =>
    rw [unused, hmid, hfree] at hperm
    refine h.reuse false hmid ?_
    simp only [filter_append, filter_cons, Bool.not_false, Bool.not_true, if_true,
      map_append, map_cons, hc, Bool.false_eq_true, if_false] at hperm ⊢
    exact perm_middle_iff.mpr hperm
  | @merge pre post b c f₁ f₂ hmid hfree hb hc =>
    rw [unused, hmid, hfree] at hperm
    refine h.replace pre [b, c] [{ b with size := b.size + c.size }] post hmid ?_ ?_ ?_
    · rintro x y ⟨rfl, -, rfl⟩
      exact ⟨rfl, (Nat.add_assoc _ _ _).symm⟩
    · intro hbig b' hm
      rw [mem_singleton.mp hm]
      exact Nat.le_add_right_of_le (hbig b mem_cons_self)
    · simp only [filter_append, filter_cons, filter_nil, Bool.not_false, if_true,
        map_append, map_cons, map_nil, hb, hc] at hperm ⊢
      have hswap := hperm.trans (Perm.append_left _ (List.Perm.swap c.addr b.addr _))
      exact perm_middle_iff.mp hswap

/-! ## What the moves do to the blocks in use and to the free bytes -/

section Accounts

variable {pre post : List Block} {z : Nat}
  {l : List Block}

theorem mem_inUse : b ∈ A.inUse ↔ b ∈ A.mid ∧ b.used = true := by
  simp [inUse]

/-- Replacing free blocks by free blocks leaves the blocks in use alone. -/
theorem inUse_replace (seg seg' : List Block) (free' : List Nat)
    (hmid : A.mid = pre ++ (seg ++ post)) (hs : ∀ b ∈ seg, b.used = false)
    (hs' : ∀ b ∈ seg', b.used = false) :
    inUse { A with mid := pre ++ (seg' ++ post), free := free' } = A.inUse := by
  have hnil : ∀ l : List Block, (∀ b ∈ l, b.used = false) → l.filter Block.used = [] :=
    fun l hl => filter_eq_nil_iff.mpr fun b hb => by simp [hl b hb]
  simp only [inUse, hmid, filter_append, hnil seg hs, hnil seg' hs']

/-- The headers of a segment, and those around it. -/
theorem mem_addrs_split (seg : List Block) (hmid : A.mid = pre ++ (seg ++ post)) :
    a ∈ A.addrs ↔ a ∈ seg.map Block.addr ∨
      a = A.first ∨ a ∈ (pre ++ post).map Block.addr ∨ a = A.last := by
  simp only [addrs_eq, hmid, map_append, mem_cons, mem_append, not_mem_nil,
    or_false]
  constructor
  · rintro (h | (h | h | h) | h) <;> simp [h]
  · rintro (h | h | (h | h) | h) <;> simp [h]

theorem mem_inUse_engage (hmid : A.mid = pre ++ c :: post) (hc : c.used = false) :
    b ∈ inUse { A with mid := pre ++ { c with used := true } :: post, free := free' } ↔
      b = { c with used := true } ∨ b ∈ A.inUse := by
  simp only [mem_inUse, hmid, mem_append, mem_cons]
  constructor
  · rintro ⟨hb | rfl | hb, hu⟩ <;> tauto
  · rintro (rfl | ⟨hb | rfl | hb, hu⟩)
    · exact ⟨.inr (.inl rfl), rfl⟩
    · exact ⟨.inl hb, hu⟩
    · rw [hc] at hu
      cases hu
    · exact ⟨.inr (.inr hb), hu⟩

theorem mem_inUse_release (h : A.WF) (hmid : A.mid = pre ++ c :: post) :
    b ∈ inUse { A with mid := pre ++ { c with used := false } :: post, free := free' } ↔
      b ∈ A.inUse ∧ b ≠ c := by
  have hnd : A.mid.Nodup := h.mid_nodup.of_map
  rw [hmid, nodup_middle, nodup_cons, mem_append, not_or] at hnd
  obtain ⟨⟨hpre, hpost⟩, -⟩ := hnd
  simp only [mem_inUse, hmid, mem_append, mem_cons]
  constructor
  · rintro ⟨hb | rfl | hb, hu⟩
    · exact ⟨⟨.inl hb, hu⟩, fun he => hpre (he ▸ hb)⟩
    · cases hu
    · exact ⟨⟨.inr (.inr hb), hu⟩, fun he => hpost (he ▸ hb)⟩
  · rintro ⟨⟨hb | rfl | hb, hu⟩, hne⟩
    · exact ⟨.inl hb, hu⟩
    · exact absurd rfl hne
    · exact ⟨.inr (.inr hb), hu⟩

/-- The bytes that a block offers. -/
def offers (b : Block) : Nat := if b.used then 0 else b.size - CHUNK.sizeof

theorem freeBytes_eq (A : Arena) : A.freeBytes = (A.mid.map offers).sum := by
  rw [freeBytes, unused]
  induction A.mid with
  | nil => rfl
  | cons b l ih =>
    rw [filter_cons, map_cons, sum_cons, ← ih, offers]
    cases b.used <;> simp

theorem freeBytes_split (f₁ f₂ : List Nat) {s : Nat} (hmid : A.mid = pre ++ c :: post)
    (hc : c.used = false) (hsz : CHUNK.sizeof + s + CHUNK.sizeof ≤ c.size) :
    A.freeBytes = (A.cut pre c post f₁ f₂ s).freeBytes + CHUNK.sizeof := by
  simp only [freeBytes_eq, cut, hmid, map_append, map_cons, sum_append,
    sum_cons, offers, hc, Bool.false_eq_true, if_false]
  omega

theorem freeBytes_engage (free' : List Nat) (hmid : A.mid = pre ++ c :: post)
    (hc : c.used = false) :
    A.freeBytes = freeBytes { A with
      mid := pre ++ { c with used := true } :: post, free := free' } + (c.size - CHUNK.sizeof) := by
  simp only [freeBytes_eq, hmid, map_append, map_cons, sum_append, sum_cons,
    offers, hc, Bool.false_eq_true, if_false, if_true]
  omega

theorem freeBytes_release (free' : List Nat) (hmid : A.mid = pre ++ c :: post)
    (hc : c.used = true) :
    freeBytes { A with mid := pre ++ { c with used := false } :: post, free := free' } =
      A.freeBytes + (c.size - CHUNK.sizeof) := by
  simp only [freeBytes_eq, hmid, map_append, map_cons, sum_append, sum_cons,
    offers, hc, Bool.false_eq_true, if_false, if_true]
  omega

theorem freeBytes_merge (free' : List Nat) (h : A.WF) (hmid : A.mid = pre ++ b :: c :: post)
    (hb : b.used = false) (hc : c.used = false) :
    freeBytes { A with mid := pre ++ { b with size := b.size + c.size } :: post, free := free' } =
      A.freeBytes + CHUNK.sizeof := by
  have hbs := h.big b (mem_mid hmid)
  have hcs := h.big c (by rw [hmid]; simp)
  simp only [freeBytes_eq, hmid, map_append, map_cons, sum_append, sum_cons,
    offers, hb, hc, Bool.false_eq_true, if_false]
  omega

/-- The free blocks of a tiled span offer at most the span without one header. -/
theorem sum_offers_le (ht : Tiles a l z) (hb : ∀ b ∈ l, CHUNK.sizeof ≤ b.size) :
    (l.map offers).sum ≤ z - a - CHUNK.sizeof := by
  induction l generalizing a with
  | nil => exact Nat.zero_le _
  | cons d l ih =>
    have hrest := ih ht.2 fun b hm => hb b (mem_cons_of_mem _ hm)
    have hle := ht.2.bounds.1
    have hd := hb d mem_cons_self
    rw [map_cons, sum_cons, offers]
    split
    · omega
    · omega

theorem WF.freeBytes_le (h : A.WF) :
    A.freeBytes ≤ A.last - (A.first + CHUNK.sizeof) - CHUNK.sizeof := by
  rw [freeBytes_eq]
  exact sum_offers_le h.tiles h.big

/-- Tiles that hold a header each are fewer than the addresses they span. -/
theorem length_le (ht : Tiles a l z) (hb : ∀ b ∈ l, CHUNK.sizeof ≤ b.size) : a + l.length ≤ z := by
  induction l generalizing a with
  | nil => exact Nat.le_of_eq ht
  | cons d l ih =>
    have hrest := ih ht.2 fun b hm => hb b (mem_cons_of_mem _ hm)
    have hd : 32 ≤ d.size := hb d mem_cons_self
    rw [length_cons]
    omega

/-- A walk of 2³² steps gets around the ring of all chunks. -/
theorem WF.all_length_lt (h : A.WF) : (A.mid.map Block.addr ++ [A.last]).length < 2 ^ 32 := by
  have hlen := length_le h.tiles h.big
  have htop := h.top
  have h32 : CHUNK.sizeof = 32 := rfl
  simp only [length_append, length_map, length_cons, length_nil]
  omega

/-- A walk of 2³² steps gets around the free ring. -/
theorem WF.free_length_lt (h : A.WF) : A.free.length < 2 ^ 32 := by
  have hlen := length_le h.tiles h.big
  have htop := h.top
  have hfree : A.free.length ≤ A.mid.length := by
    rw [h.free_perm.length_eq, length_map]
    exact length_filter_le _ _
  omega

end Accounts

end Arena

end UnagiOs
