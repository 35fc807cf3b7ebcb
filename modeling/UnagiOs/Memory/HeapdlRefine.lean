import UnagiOs.Memory.Arena

/-!
# The chunk heap refines the arena

Each primitive of heapdl.c makes one move of the arena that its memory holds:

| source          | move                    |
|-----------------|-------------------------|
| `chunk_slice`   | `Step.split`            |
| `chunk_engage`  | `Step.engage`           |
| `chunk_free`    | `Step.release`, then    |
| `chunk_merge`   | `Step.merge`            |

Both rings of a chunk sit at fixed offsets in its header, so the argument is
made once for a ring at an offset `f` (`RingAt`): the list primitives write no
word of a header but those at `f` and `f + 4` (`CHUNK.OffNode`).
-/

namespace UnagiOs

open Links List

/-! ## The words of a header -/

namespace CHUNK

/-- Where the list nodes are. -/
inductive IsNode : Nat → Prop
  | all : IsNode CHUNK.all
  | free : IsNode CHUNK.free

/-- Where the other fields are. -/
inductive IsData : Nat → Prop
  | isUsed : IsData CHUNK.isUsed
  | size : IsData CHUNK.size

/-- The word at `o` is no link of the node at `f`. -/
def OffNode (f o : Nat) : Prop := o ≠ f ∧ o ≠ f + 4

/-- The word at `o` is none of the other fields. -/
def OffData (o : Nat) : Prop := ∀ d, IsData d → o ≠ d

variable {f g o : Nat}

theorem IsNode.lt (hf : IsNode f) : f + 4 < sizeof := by
  cases hf <;> decide

theorem IsNode.next_lt (hf : IsNode f) : f < sizeof :=
  Nat.lt_of_le_of_lt (Nat.le_add_right f 4) hf.lt

theorem IsData.lt (ho : IsData o) : o < sizeof := by
  cases ho <;> decide

theorem IsData.off (ho : IsData o) (hf : IsNode f) : OffNode f o := by
  cases ho <;> cases hf <;> exact ⟨by decide, by decide⟩

theorem IsNode.offData (hf : IsNode f) : OffData f ∧ OffData (f + 4) :=
  ⟨fun _ hd => (hd.off hf).1.symm, fun _ hd => (hd.off hf).2.symm⟩

theorem all_ne_free : all ≠ free := by decide

theorem size_ne_isUsed : size ≠ isUsed := by decide

/-- The links of one node are off the other node. -/
theorem IsNode.off (hf : IsNode f) (hg : IsNode g) (hne : f ≠ g) :
    OffNode g f ∧ OffNode g (f + 4) := by
  cases hf <;> cases hg
  · exact absurd rfl hne
  · exact ⟨⟨by decide, by decide⟩, by decide, by decide⟩
  · exact ⟨⟨by decide, by decide⟩, by decide, by decide⟩
  · exact absurd rfl hne

end CHUNK

/-- A word that is a flag has the flag in its low byte. -/
theorem Mem.isUsed_of_word {m : Mem} {chunk : Nat} {v : Bool}
    (hw : m (chunk + CHUNK.isUsed) = v.toNat) : m.isUsed chunk = v := by
  rw [Mem.isUsed, hw]
  cases v <;> rfl

/-- As long as the padding behind it is clear, an assignment to the byte `isUsed` is one to the
word. -/
theorem Mem.setUsed_eq_write {m : Mem} {chunk : Nat} (hw : m (chunk + CHUNK.isUsed) < 256)
    (v : Bool) : m.setUsed chunk v = m.write (chunk + CHUNK.isUsed) v.toNat := by
  rw [Mem.setUsed, Nat.div_eq_of_lt hw, Nat.zero_mul, Nat.zero_add]

/-! ## Rings through headers -/

/-- A ring through the nodes at offset `f` in the chunks `a` and `l`. -/
def RingAt (m : Mem) (f a : Nat) (l : List Nat) : Prop :=
  Mem.links.Ring m (a + f) (l.map (· + f))

section Congr

variable {m m' : Mem} {f g a : Nat} {l : List Nat}

/-- A ring at an offset only depends on the two link words of its chunks. -/
theorem RingAt.congr (h : RingAt m f a l)
    (hn : ∀ x ∈ a :: l, m' (x + f) = m (x + f))
    (hp : ∀ x ∈ a :: l, m' (x + (f + 4)) = m (x + (f + 4))) : RingAt m' f a l := by
  refine Ring.congr h fun y hy => ?_
  rw [← map_cons (f := (· + f))] at hy
  obtain ⟨x, hx, rfl⟩ := mem_map.mp hy
  have hprev := hp x hx
  rw [← Nat.add_assoc] at hprev
  exact ⟨hn x hx, hprev⟩

/-- A ring of one node depends on two words. -/
theorem RingAt.congr_alone (h : RingAt m f a [])
    (hn : m' (a + f) = m (a + f)) (hp : m' (a + (f + 4)) = m (a + (f + 4))) :
    RingAt m' f a [] := by
  refine h.congr (fun x hx => ?_) (fun x hx => ?_)
  · rw [mem_singleton.mp hx, hn]
  · rw [mem_singleton.mp hx, hp]

/-- A ring stays when of the headers only the link words of the other node change. -/
theorem RingAt.congr_other (h : RingAt m f a l) (hf : CHUNK.IsNode f) (hg : CHUNK.IsNode g)
    (hne : f ≠ g) (hword : ∀ x ∈ a :: l, ∀ {o : Nat}, o < CHUNK.sizeof → CHUNK.OffNode g o →
      m' (x + o) = m (x + o)) : RingAt m' f a l := by
  obtain ⟨hnext, hprev⟩ := hf.off hg hne
  refine h.congr (fun x hx => ?_) (fun x hx => ?_)
  · exact hword x hx hf.next_lt hnext
  · exact hword x hx hf.lt hprev

/-- A ring stays when of the headers only words that are not links change. -/
theorem RingAt.congr_data (h : RingAt m f a l) (hf : CHUNK.IsNode f)
    (hword : ∀ x ∈ a :: l, ∀ {o : Nat}, o < CHUNK.sizeof → CHUNK.OffData o →
      m' (x + o) = m (x + o)) : RingAt m' f a l := by
  obtain ⟨hnext, hprev⟩ := hf.offData
  refine h.congr (fun x hx => ?_) (fun x hx => ?_)
  · exact hword x hx hf.next_lt hnext
  · exact hword x hx hf.lt hprev

end Congr

theorem nodup_map_add {l : List Nat} (f : Nat) (h : l.Nodup) : (l.map (· + f)).Nodup :=
  h.map fun _ _ he => Nat.add_right_cancel he

/-- Only link words of the nodes at `f` in the chunks `F` differ. -/
def Relinked (F : List Nat) (f : Nat) (m m' : Mem) : Prop :=
  ∀ w, Mem.OffLinks (fun y => y ∈ F.map (· + f)) w → m' w = m w

theorem Relinked.mono {F G : List Nat} {f : Nat} {m m' : Mem} (hm : Relinked F f m m')
    (hsub : ∀ a ∈ F, a ∈ G) : Relinked G f m m' :=
  fun w hw => hm w fun y hy => hw y (map_subset (· + f) hsub hy)

theorem Relinked.trans {F : List Nat} {f : Nat} {m m₁ m' : Mem} (hm : Relinked F f m m₁)
    (hm' : Relinked F f m₁ m') : Relinked F f m m' :=
  fun w hw => (hm' w hw).trans (hm w hw)

section Off

variable {m : Mem} {f a d x : Nat} {l : List Nat}

/-- `dlist_remove` writes link words of its ring only. -/
theorem RingAt.remove_relinked (hr : RingAt m f a l) (hx : x ∈ a :: l) :
    Relinked (a :: l) f m (dlistRemove Mem.links m (x + f)) := by
  intro w hw
  have hxm : x + f ∈ (a + f) :: l.map (· + f) := mem_map_of_mem (f := (· + f)) hx
  exact dlistRemove_preserves (P := fun m' => m' w = m w) (Mem.setNext_off hw) (Mem.setPrev_off hw)
    hxm (hr.prev_closed hxm) (hr.next_closed hxm) rfl

variable (hr : RingAt m f a l) (hx : RingAt m f x []) (hd : d ∈ a :: l)
include hr hx hd

/-- `dlist_insert_after` writes link words of its ring and of the new node only. -/
theorem RingAt.insertAfter_relinked :
    Relinked (x :: a :: l) f m (dlistInsertAfter Mem.links m (d + f) (x + f)) := by
  intro w hw
  have hdm : d + f ∈ (a + f) :: l.map (· + f) := mem_map_of_mem (f := (· + f)) hd
  refine dlistInsertAfter_preserves (P := fun m' => m' w = m w) (Mem.setNext_off hw)
    (Mem.setPrev_off hw) (mem_cons_of_mem _ hdm) mem_cons_self
    (mem_cons_of_mem _ (hr.next_closed hdm)) ?_ rfl
  rw [(ring_nil.mp hx).2]
  exact mem_cons_self

theorem RingAt.insertBefore_relinked :
    Relinked (x :: a :: l) f m (dlistInsertBefore Mem.links m (d + f) (x + f)) := by
  intro w hw
  have hdm : d + f ∈ (a + f) :: l.map (· + f) := mem_map_of_mem (f := (· + f)) hd
  refine dlistInsertBefore_preserves (P := fun m' => m' w = m w) (Mem.setNext_off hw)
    (Mem.setPrev_off hw) (mem_cons_of_mem _ hdm) mem_cons_self
    (mem_cons_of_mem _ (hr.prev_closed hdm)) ?_ rfl
  rw [(ring_nil.mp hx).2]
  exact mem_cons_self

end Off

namespace Arena

variable {m' : Mem} {b : Block} {o a c x : Nat} {free' : List Nat}

/-- The nodes at offset `f` of the chunks of an arena. -/
def NodeAt (A : Arena) (f y : Nat) : Prop := ∃ a ∈ A.addrs, y = a + f

variable {A : Arena} {m : Mem} {f : Nat}

theorem WF.lawful (h : A.WF) (hf : CHUNK.IsNode f) : Mem.links.Lawful (A.NodeAt f) := by
  have hlt := hf.lt
  refine Mem.links_lawful ?_
  rintro _ _ ⟨a, ha, rfl⟩ ⟨a', ha', rfl⟩ heq
  rw [Nat.add_assoc] at heq
  have := (h.addr_off ha ha' (by omega) hlt heq).2
  omega

section Relinked

variable {m' : Mem} {F : List Nat} (h : A.WF) (hf : CHUNK.IsNode f) (hF : ∀ a ∈ F, a ∈ A.addrs)
  (hm : Relinked F f m m')
include h hf hF hm

/-- A word of a header stays, unless it is one of the two link words of a node in `F`. -/
theorem WF.relinked_word {b o : Nat} (hb : b ∈ A.addrs) (ho : o < CHUNK.sizeof)
    (hne : b ∈ F → CHUNK.OffNode f o) : m' (b + o) = m (b + o) := by
  have hlt := hf.lt
  refine hm _ fun y hy => ?_
  obtain ⟨a, ha, rfl⟩ := mem_map.mp hy
  constructor
  · intro heq
    obtain ⟨rfl, rfl⟩ := h.addr_off hb (hF a ha) ho (by omega) heq
    exact (hne ha).1 rfl
  · intro heq
    have heq' : b + o = a + (f + 4) := by omega
    obtain ⟨rfl, rfl⟩ := h.addr_off hb (hF a ha) ho hlt heq'
    exact (hne ha).2 rfl

/-- So do the rings through the other nodes. -/
theorem WF.relinked_ring {g a : Nat} {l : List Nat} (hg : CHUNK.IsNode g) (hne : g ≠ f)
    (hl : ∀ y ∈ a :: l, y ∈ A.addrs) (hr : RingAt m g a l) : RingAt m' g a l :=
  hr.congr_other hg hf hne fun y hy _ ho hoff => h.relinked_word hf hF hm (hl y hy) ho fun _ => hoff

end Relinked

/-- After the ring of all chunks and the free ring have changed. -/
theorem WF.relinked_both {m₁ : Mem} {F G : List Nat} {b : Nat} (h : A.WF)
    (hF : ∀ a ∈ F, a ∈ A.addrs) (hG : ∀ a ∈ G, a ∈ A.addrs) (hm₁ : Relinked F CHUNK.all m m₁)
    (hm' : Relinked G CHUNK.free m₁ m') (hb : b ∈ A.addrs) (ho : o < CHUNK.sizeof)
    (hoff : CHUNK.OffNode CHUNK.all o) (hne : b ∈ G → CHUNK.OffNode CHUNK.free o) :
    m' (b + o) = m (b + o) :=
  (h.relinked_word .free hG hm' hb ho hne).trans
    (h.relinked_word .all hF hm₁ hb ho fun _ => hoff)

/-! ## List primitives on rings of headers -/

section Primitives

variable (h : A.WF) (hf : CHUNK.IsNode f) {l : List Nat}
include h hf

theorem WF.remove {a x : Nat} {l₁ l₂ : List Nat} (hr : RingAt m f a (l₁ ++ x :: l₂))
    (hnd : (a :: (l₁ ++ x :: l₂)).Nodup) (hsub : ∀ y ∈ a :: (l₁ ++ x :: l₂), y ∈ A.addrs) :
    RingAt (dlistRemove Mem.links m (x + f)) f a (l₁ ++ l₂) ∧
      RingAt (dlistRemove Mem.links m (x + f)) f x [] := by
  have hnd' := nodup_map_add f hnd
  unfold RingAt at hr ⊢
  rw [map_append, map_cons] at hr
  rw [map_cons, map_append, map_cons] at hnd'
  rw [map_append]
  refine dlistRemove_ring (h.lawful hf) hr hnd' ?_
  intro y hy
  rw [← map_cons (f := (· + f)), ← map_append, ← map_cons (f := (· + f))] at hy
  obtain ⟨b, hb, rfl⟩ := mem_map.mp hy
  exact ⟨b, hsub b hb, rfl⟩

omit h hf in
/-- A ring and a new node, as nodes. -/
theorem new_node {a x : Nat} (hnd : (x :: a :: l).Nodup) (hsub : ∀ y ∈ x :: a :: l, y ∈ A.addrs) :
    ((a + f) :: l.map (· + f) ++ [x + f]).Nodup ∧
      ∀ y ∈ (a + f) :: l.map (· + f) ++ [x + f], A.NodeAt f y := by
  have hperm : ((a :: l) ++ [x]).Perm (x :: a :: l) := perm_append_singleton x (a :: l)
  have hmap : (a + f) :: l.map (· + f) ++ [x + f] = ((a :: l) ++ [x]).map (· + f) := by simp
  rw [hmap]
  refine ⟨nodup_map_add f (hperm.nodup_iff.mpr hnd), fun y hy => ?_⟩
  obtain ⟨b, hb, rfl⟩ := mem_map.mp hy
  exact ⟨b, hsub b (hperm.mem_iff.mp hb), rfl⟩

theorem WF.insertAfter_head {a x : Nat} (hr : RingAt m f a l) (hx : RingAt m f x [])
    (hnd : (x :: a :: l).Nodup) (hsub : ∀ y ∈ x :: a :: l, y ∈ A.addrs) :
    RingAt (dlistInsertAfter Mem.links m (a + f) (x + f)) f a (x :: l) :=
  dlistInsertAfter_ring (h.lawful hf) hr hx (new_node hnd hsub).1 (new_node hnd hsub).2

variable {a d x : Nat} {l₁ l₂ : List Nat} (hr : RingAt m f a (l₁ ++ d :: l₂))
  (hx : RingAt m f x []) (hnd : (x :: a :: (l₁ ++ d :: l₂)).Nodup)
  (hsub : ∀ y ∈ x :: a :: (l₁ ++ d :: l₂), y ∈ A.addrs)
include hr hx hnd hsub

theorem WF.insertAfter_member :
    RingAt (dlistInsertAfter Mem.links m (d + f) (x + f)) f a (l₁ ++ d :: x :: l₂) := by
  obtain ⟨hnd', hnode⟩ := new_node (f := f) hnd hsub
  simp only [RingAt, map_append, map_cons] at hr hnd' hnode ⊢
  exact dlistInsertAfter_member (h.lawful hf) hr hx hnd' hnode

theorem WF.insertBefore_member :
    RingAt (dlistInsertBefore Mem.links m (d + f) (x + f)) f a (l₁ ++ x :: d :: l₂) := by
  obtain ⟨hnd', hnode⟩ := new_node (f := f) hnd hsub
  simp only [RingAt, map_append, map_cons] at hr hnd' hnode ⊢
  have hins := dlistInsertBefore_member (h.lawful hf) hr hx hnd' hnode
  simpa using hins

end Primitives

/-- A new chunk linked behind the same chunk in both rings. -/
theorem WF.link (h : A.WF) {a c x : Nat} {l₁ l₂ f₁ f₂ : List Nat}
    (hall : RingAt m CHUNK.all a (l₁ ++ c :: l₂)) (hxa : RingAt m CHUNK.all x [])
    (hfree : RingAt m CHUNK.free a (f₁ ++ c :: f₂)) (hxf : RingAt m CHUNK.free x [])
    (hnda : (x :: a :: (l₁ ++ c :: l₂)).Nodup) (hndf : (x :: a :: (f₁ ++ c :: f₂)).Nodup)
    (hsuba : ∀ y ∈ x :: a :: (l₁ ++ c :: l₂), y ∈ A.addrs)
    (hsubf : ∀ y ∈ x :: a :: (f₁ ++ c :: f₂), y ∈ A.addrs) :
    let m' := dlistInsertAfter Mem.links
      (dlistInsertAfter Mem.links m (c + CHUNK.all) (x + CHUNK.all)) (c + CHUNK.free)
      (x + CHUNK.free)
    RingAt m' CHUNK.all a (l₁ ++ c :: x :: l₂) ∧ RingAt m' CHUNK.free a (f₁ ++ c :: x :: f₂) ∧
      ∃ m₁, Relinked (x :: a :: (l₁ ++ c :: l₂)) CHUNK.all m m₁ ∧
        Relinked (x :: a :: (f₁ ++ c :: f₂)) CHUNK.free m₁ m' := by
  -- the ring of all chunks; the free ring stays
  have hall₁ := h.insertAfter_member .all hall hxa hnda hsuba
  have hm₁ := hall.insertAfter_relinked hxa (d := c) (by simp)
  generalize dlistInsertAfter Mem.links m (c + CHUNK.all) (x + CHUNK.all) = m₁ at hall₁ hm₁ ⊢
  have hfree₁ := h.relinked_ring .all hsuba hm₁ .free CHUNK.all_ne_free.symm
    (fun y hy => hsubf y (mem_cons_of_mem x hy)) hfree
  have hxf₁ := h.relinked_ring .all hsuba hm₁ .free CHUNK.all_ne_free.symm
    (by simpa using hsuba x mem_cons_self) hxf
  -- the free ring; the other one stays
  have hm₂ := hfree₁.insertAfter_relinked hxf₁ (d := c) (by simp)
  refine ⟨h.relinked_ring .free hsubf hm₂ .all CHUNK.all_ne_free (fun y hy => hsuba y ?_) hall₁,
    h.insertAfter_member .free hfree₁ hxf₁ hndf hsubf, m₁, hm₁, hm₂⟩
  simp only [mem_cons, mem_append] at hy ⊢
  tauto

/-! ## The arena held by a memory -/

/-- The memory holds the arena: both rings, and the fields of every header. -/
structure Holds (m : Mem) (A : Arena) : Prop where
  all : RingAt m CHUNK.all A.first (A.mid.map Block.addr ++ [A.last])
  free : RingAt m CHUNK.free A.first A.free
  alone : ∀ b ∈ A.mid, b.used = true → RingAt m CHUNK.free b.addr []
  size : ∀ b ∈ A.blocks, m (b.addr + CHUNK.size) = b.size
  used : ∀ b ∈ A.blocks, m (b.addr + CHUNK.isUsed) = b.used.toNat

theorem WF.first_not_mid (h : A.WF) (hb : b ∈ A.mid) : b.addr ≠ A.first := by
  have := (h.tiles.bounds.2 b hb).1
  have : 0 < CHUNK.sizeof := by decide
  omega

theorem WF.last_not_mid (h : A.WF) (hb : b ∈ A.mid) : b.addr ≠ A.last := by
  have h1 := (h.tiles.bounds.2 b hb).2
  have h2 := h.big b hb
  have : 0 < CHUNK.sizeof := by decide
  omega

theorem WF.free_ring_nodup (h : A.WF) : (A.first :: A.free).Nodup := by
  refine nodup_cons.mpr ⟨fun hm => ?_, h.free_nodup⟩
  obtain ⟨b, hb, ha, -⟩ := h.mem_free.mp hm
  exact h.first_not_mid hb ha

theorem WF.free_ring_subset (h : A.WF) : ∀ y ∈ A.first :: A.free, y ∈ A.addrs := by
  intro y hy
  rcases mem_cons.mp hy with rfl | hy
  · exact A.first_mem_addrs
  · exact h.free_subset hy

/-- A block in use is not on the free ring. -/
theorem WF.used_off_free (h : A.WF) (hb : b ∈ A.mid) (hu : b.used = true) :
    b.addr ∉ A.first :: A.free := by
  intro hm
  rcases mem_cons.mp hm with he | hm
  · exact h.first_not_mid hb he
  · obtain ⟨b', hb', ha, hu'⟩ := h.mem_free.mp hm
    rw [h.eq_of_addr hb' hb ha, hu] at hu'
    cases hu'

/-- Writing a field of one header leaves every other header word alone. -/
theorem WF.write_word (h : A.WF) {b o' : Nat} (v : Nat) (hc : c ∈ A.addrs) (hb : b ∈ A.addrs)
    (ho : CHUNK.IsData o) (ho' : o' < CHUNK.sizeof) (hne : b ≠ c ∨ o' ≠ o) :
    m.write (c + o) v (b + o') = m (b + o') := by
  refine Mem.write_other m v fun heq => ?_
  obtain ⟨hbc, hoo⟩ := h.addr_off hb hc ho' ho.lt heq
  rcases hne with hne | hne
  · exact hne hbc
  · exact hne hoo

/-- A write to a field of a chunk other than its links leaves the rings alone. -/
theorem WF.ringAt_write (h : A.WF) {v : Nat} {l : List Nat} (hx : x ∈ A.addrs) (ho : CHUNK.IsData o)
    (hf : CHUNK.IsNode f) (hsub : ∀ y ∈ a :: l, y ∈ A.addrs) (hr : RingAt m f a l) :
    RingAt (m.write (x + o) v) f a l :=
  hr.congr_data hf fun y hy _ hlt hoff => h.write_word v hx (hsub y hy) ho hlt (.inr (hoff o ho))

/-- After a stretch of blocks is replaced, a block is one of the new ones or an
old one elsewhere. -/
theorem WF.mem_blocks_replace (h : A.WF) (pre seg seg' post : List Block)
    (hmid : A.mid = pre ++ (seg ++ post))
    (hb : b ∈ blocks { A with mid := pre ++ (seg' ++ post), free := free' }) :
    b ∈ seg' ∨ (b ∈ A.blocks ∧ ∀ c ∈ seg, b.addr ≠ c.addr) := by
  have hnd := h.addrs_nodup
  have hold : ∀ c ∈ seg, ∀ b', b' ∈ A.blocks → b' ∉ seg → b'.addr ≠ c.addr := by
    intro c hc b' hb' hns heq
    have hcb : c ∈ A.blocks := mem_blocks (by rw [hmid]; simp [hc])
    rw [inj_on_of_nodup_map hnd hb' hcb heq] at hns
    exact hns hc
  by_cases hseg : b ∈ seg'
  · exact Or.inl hseg
  · have hbA : b ∈ A.blocks := by
      simp only [blocks, hmid, cons_append, mem_cons, mem_append] at hb ⊢
      tauto
    refine Or.inr ⟨hbA, fun c hc => hold c hc b hbA fun hbs => ?_⟩
    -- `b` would stand in the arena twice
    have hnb : A.blocks.Nodup := hnd.of_map
    simp only [blocks, hmid, cons_append, nodup_cons, nodup_append,
      mem_cons, mem_append, append_assoc] at hnb
    simp only [blocks, cons_append, mem_cons, mem_append] at hb
    rcases hb with rfl | (hb | hb | hb) | hb
    · exact hnb.1 (by simp [hbs])
    · exact hnb.2.2.2 b hb b (by simp [hbs]) rfl
    · exact hseg hb
    · exact hnb.2.2.1.2.2 b hbs b (by simp [hb]) rfl
    · exact hnb.2.2.1.2.2 b hbs b (Or.inr hb) rfl

theorem addr_mem_of_blocks (hb : b ∈ A.blocks) : b.addr ∈ A.addrs :=
  mem_map_of_mem hb

theorem Holds.isUsed (hm : Holds m A) (hb : b ∈ A.blocks) : m.isUsed b.addr = b.used :=
  Mem.isUsed_of_word (hm.used b hb)

theorem Holds.setUsed (hm : Holds m A) (hb : b ∈ A.blocks) (v : Bool) :
    m.setUsed b.addr v = m.write (b.addr + CHUNK.isUsed) v.toNat :=
  Mem.setUsed_eq_write (by rw [hm.used b hb]; cases b.used <;> decide) v

/-- A memory with the same header words holds the same arena. -/
theorem Holds.congr (hm : Holds m A) (hw : A.WF)
    (h : ∀ {a o : Nat}, a ∈ A.addrs → o < CHUNK.sizeof → m' (a + o) = m (a + o)) : Holds m' A := by
  have hring : ∀ {f a l}, CHUNK.IsNode f → (∀ y ∈ a :: l, y ∈ A.addrs) → RingAt m f a l →
      RingAt m' f a l := fun hf hsub hr =>
    hr.congr_data hf fun y hy _ hlt _ => h (hsub y hy) hlt
  refine ⟨hring .all (fun y hy => by rw [addrs_eq]; exact hy) hm.all,
    hring .free hw.free_ring_subset hm.free, fun b hb hu => ?_, fun b hb => ?_, fun b hb => ?_⟩
  · exact hring .free (by simpa using mem_addrs hb) (hm.alone b hb hu)
  · exact (h (addr_mem_of_blocks hb) CHUNK.IsData.size.lt).trans (hm.size b hb)
  · exact (h (addr_mem_of_blocks hb) CHUNK.IsData.isUsed.lt).trans (hm.used b hb)

/-- A block split in two adds one header, which is new. -/
theorem split_addrs {pre post : List Block} {c c' e : Block}
    (h' : WF { A with mid := pre ++ c' :: e :: post, free := free' })
    (hmid : A.mid = pre ++ c :: post) (haddr : c'.addr = c.addr) :
    (addrs { A with mid := pre ++ c' :: e :: post, free := free' }).Perm (e.addr :: A.addrs) ∧
      e.addr ∉ A.addrs := by
  have hperm : (addrs { A with mid := pre ++ c' :: e :: post, free := free' }).Perm
      (e.addr :: A.addrs) := by
    rw [addrs_eq, addrs_eq, hmid]
    simp only [map_append, map_cons, append_assoc, cons_append, haddr]
    refine List.Perm.trans (List.Perm.cons _ ?_) (List.Perm.swap _ _ _)
    simpa using @perm_middle _ e.addr (pre.map Block.addr ++ [c.addr])
      (post.map Block.addr ++ [A.last])
  exact ⟨hperm, (nodup_cons.mp (hperm.nodup_iff.mp h'.addrs_nodup)).1⟩

/-- The header of one block. -/
structure HeaderAt (m : Mem) (b : Block) : Prop where
  size : m (b.addr + CHUNK.size) = b.size
  used : m (b.addr + CHUNK.isUsed) = b.used.toNat
  alone : b.used = true → RingAt m CHUNK.free b.addr []

/-- A stretch of blocks is replaced: new rings and new headers there, and all words of
the other headers but the links stay. -/
theorem Holds.replace (hm : Holds m A) (h : A.WF) (pre seg seg' post : List Block)
    (hmid : A.mid = pre ++ (seg ++ post))
    (hall : RingAt m' CHUNK.all A.first ((pre ++ (seg' ++ post)).map Block.addr ++ [A.last]))
    (hfree : RingAt m' CHUNK.free A.first free') (hseg : ∀ b ∈ seg', HeaderAt m' b)
    (hw : ∀ {b o : Nat}, b ∈ A.addrs → (∀ c ∈ seg, b ≠ c.addr) → o < CHUNK.sizeof →
      CHUNK.OffNode CHUNK.all o → (b ∈ A.first :: A.free → CHUNK.OffNode CHUNK.free o) →
      m' (b + o) = m (b + o)) :
    Holds m' { A with mid := pre ++ (seg' ++ post), free := free' } := by
  have hdata : ∀ {b o : Nat}, b ∈ A.addrs → (∀ c ∈ seg, b ≠ c.addr) → CHUNK.IsData o →
      m' (b + o) = m (b + o) := fun hb hne ho =>
    hw hb hne ho.lt (ho.off .all) fun _ => ho.off .free
  refine ⟨hall, hfree, fun b hb hu => ?_, fun b hb => ?_, fun b hb => ?_⟩
  · rcases h.mem_blocks_replace pre seg seg' post hmid (mem_blocks hb) with hs | ⟨-, hne⟩
    · exact (hseg b hs).alone hu
    by_cases hs : b ∈ seg'
    · exact (hseg b hs).alone hu
    · have hbm : b ∈ A.mid := by
        rw [hmid]
        simp only [mem_append, hs, false_or] at hb ⊢
        tauto
      have hoff := h.used_off_free hbm hu
      refine (hm.alone b hbm hu).congr_other .free .all CHUNK.all_ne_free.symm ?_
      intro x hx o ho hall
      cases mem_singleton.mp hx
      exact hw (mem_addrs hbm) hne ho hall fun hmem => absurd hmem hoff
  · rcases h.mem_blocks_replace pre seg seg' post hmid hb with hs | ⟨hbA, hne⟩
    · exact (hseg b hs).size
    · exact (hdata (addr_mem_of_blocks hbA) hne .size).trans (hm.size b hbA)
  · rcases h.mem_blocks_replace pre seg seg' post hmid hb with hs | ⟨hbA, hne⟩
    · exact (hseg b hs).used
    · exact (hdata (addr_mem_of_blocks hbA) hne .isUsed).trans (hm.used b hbA)

/-! ## The four moves in memory -/

section Moves

variable (h : A.WF) (hm : Holds m A) {pre post : List Block} {c : Block} {m' : Mem}
  {free' f₁ f₂ : List Nat} {a o : Nat}
include h hm

/-- A change of one chunk's use: its `isUsed` word and links of the free ring
change, all other header words stay. -/
theorem holds_reuse (hmid : A.mid = pre ++ c :: post) (v : Bool)
    (hrel : Relinked (c.addr :: A.first :: A.free) CHUNK.free
      (m.write (c.addr + CHUNK.isUsed) v.toNat) m') (hfree : RingAt m' CHUNK.free A.first free')
    (hc : v = true → RingAt m' CHUNK.free c.addr []) :
    Holds m' { A with mid := pre ++ { c with used := v } :: post, free := free' } := by
  have hcm := mem_mid hmid
  have hca := mem_addrs hcm
  have hsub := forall_mem_cons.mpr ⟨hca, h.free_ring_subset⟩
  refine hm.replace h pre [c] [{ c with used := v }] post hmid ?_ hfree (fun b hb => ?_)
    fun hb hne ho _ hoff => ?_
  · -- first the mark, then the links of the free ring
    have hmark := h.ringAt_write (v := v.toNat) hca .isUsed .all A.all_ring_subset hm.all
    have hall := h.relinked_ring .free hsub hrel .all CHUNK.all_ne_free A.all_ring_subset hmark
    rw [hmid] at hall
    simpa using hall
  · rw [mem_singleton.mp hb]
    have hdata : ∀ {o : Nat}, CHUNK.IsData o → _ := fun ho =>
      h.relinked_word .free hsub hrel hca ho.lt fun _ => ho.off .free
    refine ⟨?_, ?_, hc⟩
    · exact ((hdata .size).trans (h.write_word _ hca hca .isUsed CHUNK.IsData.size.lt
        (.inr CHUNK.size_ne_isUsed))).trans (hm.size c (mem_blocks hcm))
    · exact (hdata .isUsed).trans (Mem.write_self m _ _)
  · have hne := hne c (mem_singleton_self c)
    exact (h.relinked_word .free hsub hrel hb ho fun hmem =>
      hoff ((mem_cons.mp hmem).resolve_left hne)).trans
        (h.write_word _ hca hb .isUsed ho (.inl hne))

/-- `chunk_engage` on the memory: mark the chunk and take it off the free ring. -/
theorem holds_engage (hmid : A.mid = pre ++ c :: post) (hfree : A.free = f₁ ++ c.addr :: f₂) :
    Holds (dlistRemove Mem.links (m.setUsed c.addr true) (c.addr + CHUNK.free))
      { A with mid := pre ++ { c with used := true } :: post, free := f₁ ++ f₂ } := by
  have hcb := mem_mid hmid
  rw [hm.setUsed (mem_blocks hcb)]
  have hring := h.ringAt_write (v := 1) (mem_addrs hcb) .isUsed .free h.free_ring_subset hm.free
  have hrel := hring.remove_relinked (x := c.addr) (by rw [hfree]; simp)
  have hnd := h.free_ring_nodup
  have hsub := h.free_ring_subset
  rw [hfree] at hring hnd hsub
  obtain ⟨hfr, hal⟩ := h.remove .free hring hnd hsub
  exact holds_reuse h hm hmid true (hrel.mono fun _ => mem_cons_of_mem _) hfr fun _ => hal

/-- The first half of `chunk_free` on the memory: clear the mark of a chunk in
use and link it into the free ring, wherever that is. -/
theorem holds_release (hmid : A.mid = pre ++ c :: post) (hring : RingAt m' CHUNK.free A.first free')
    (hrel : Relinked (c.addr :: A.first :: A.free) CHUNK.free
      (m.write (c.addr + CHUNK.isUsed) 0) m') :
    Holds m' { A with mid := pre ++ { c with used := false } :: post, free := free' } :=
  holds_reuse h hm hmid false hrel hring nofun

/-- Taking a chunk off both rings writes links of the rings only. -/
theorem unlink_relinked (hc : c ∈ A.mid) (hcf : c.addr ∈ A.free) :
    ∃ m₁, Relinked (A.first :: (A.mid.map Block.addr ++ [A.last])) CHUNK.all m m₁ ∧
      Relinked (A.first :: A.free) CHUNK.free m₁ (dlistRemove Mem.links
        (dlistRemove Mem.links m (c.addr + CHUNK.all)) (c.addr + CHUNK.free)) := by
  have hm₁ := hm.all.remove_relinked (A.addrs_eq ▸ mem_addrs hc)
  have hfree₁ := h.relinked_ring .all A.all_ring_subset hm₁ .free CHUNK.all_ne_free.symm
    h.free_ring_subset hm.free
  exact ⟨_, hm₁, hfree₁.remove_relinked (mem_cons_of_mem _ hcf)⟩

theorem unlink_word (hc : c ∈ A.mid) (hcf : c.addr ∈ A.free) (ha : a ∈ A.addrs)
    (ho : o < CHUNK.sizeof) (hoff : CHUNK.OffNode CHUNK.all o)
    (hne : a ∈ A.first :: A.free → CHUNK.OffNode CHUNK.free o) :
    dlistRemove Mem.links (dlistRemove Mem.links m (c.addr + CHUNK.all)) (c.addr + CHUNK.free)
      (a + o) = m (a + o) := by
  obtain ⟨m₁, hm₁, hm₂⟩ := unlink_relinked h hm hc hcf
  exact h.relinked_both A.all_ring_subset h.free_ring_subset hm₁ hm₂ ha ho hoff hne

theorem unlink_data (hc : c ∈ A.mid) (hcf : c.addr ∈ A.free) (ha : a ∈ A.addrs)
    (ho : CHUNK.IsData o) :
    dlistRemove Mem.links (dlistRemove Mem.links m (c.addr + CHUNK.all)) (c.addr + CHUNK.free)
      (a + o) = m (a + o) :=
  unlink_word h hm hc hcf ha ho.lt (ho.off .all) fun _ => ho.off .free

omit h hm in
theorem ring_split (hmid : A.mid = pre ++ c :: post) : A.mid.map Block.addr ++ [A.last] =
    pre.map Block.addr ++ c.addr :: (post.map Block.addr ++ [A.last]) := by
  rw [hmid]
  simp

/-- Taking a chunk off both rings leaves both rings without it. -/
theorem unlink_rings (hmid : A.mid = pre ++ c :: post) (hfree : A.free = f₁ ++ c.addr :: f₂) :
    RingAt (dlistRemove Mem.links (dlistRemove Mem.links m (c.addr + CHUNK.all))
        (c.addr + CHUNK.free)) CHUNK.all A.first
      (pre.map Block.addr ++ (post.map Block.addr ++ [A.last])) ∧
    RingAt (dlistRemove Mem.links (dlistRemove Mem.links m (c.addr + CHUNK.all))
        (c.addr + CHUNK.free)) CHUNK.free A.first (f₁ ++ f₂) := by
  have hca : c.addr ∈ A.addrs := mem_addrs (mem_mid hmid)
  have hall := hm.all
  have hallnd := h.addrs_nodup
  have hallsub := A.all_ring_subset
  have hm₁ := hall.remove_relinked (A.addrs_eq ▸ hca)
  rw [addrs_eq, ring_split hmid] at hallnd
  rw [ring_split hmid] at hall hallsub hm₁
  have hall₁ := (h.remove .all hall hallnd hallsub).1
  generalize dlistRemove Mem.links m (c.addr + CHUNK.all) = m₁ at hm₁ hall₁ ⊢
  -- the free ring, untouched so far
  have hfree₁ := h.relinked_ring .all hallsub hm₁ .free CHUNK.all_ne_free.symm h.free_ring_subset
    hm.free
  have hm₂ := hfree₁.remove_relinked (x := c.addr) (by rw [hfree]; simp)
  have hnd := h.free_ring_nodup
  have hsub := h.free_ring_subset
  rw [hfree] at hfree₁ hnd hsub
  refine ⟨h.relinked_ring .free h.free_ring_subset hm₂ .all CHUNK.all_ne_free
    (fun y hy => hallsub y ?_) hall₁, (h.remove .free hfree₁ hnd hsub).1⟩
  simp only [mem_cons, mem_append] at hy ⊢
  tauto

/-- `chunk_merge` on the memory: take the second chunk off both rings and give
its size to the first. -/
theorem holds_merge {b : Block} (hmid : A.mid = pre ++ b :: c :: post)
    (hfree : A.free = f₁ ++ c.addr :: f₂) (hb : b.used = false) :
    Holds ((dlistRemove Mem.links (dlistRemove Mem.links m (c.addr + CHUNK.all))
        (c.addr + CHUNK.free)).write (b.addr + CHUNK.size) (b.size + c.size))
      { A with mid := pre ++ { b with size := b.size + c.size } :: post, free := f₁ ++ f₂ } := by
  have hbm := mem_mid hmid
  have hba := mem_addrs hbm
  have hmid' : A.mid = (pre ++ [b]) ++ c :: post := by rw [hmid]; simp
  have hcm := mem_mid hmid'
  obtain ⟨hall, hfr⟩ := unlink_rings h hm hmid' hfree
  have hcf : c.addr ∈ A.free := by rw [hfree]; simp
  refine hm.replace h pre [b, c] [{ b with size := b.size + c.size }] post hmid ?_ ?_
    (fun b' hb' => ?_) fun ha hne ho hoff hoff' => ?_
  · have hall' := h.ringAt_write (v := b.size + c.size) hba .size .all (fun y hy => ?_) hall
    · simpa using hall'
    · rw [addrs_eq, hmid']
      simp only [map_append, map_cons, map_nil, mem_cons, mem_append]
        at hy ⊢
      tauto
  · refine h.ringAt_write hba .size .free (fun y hy => ?_) hfr
    refine h.free_ring_subset y ?_
    rw [hfree]
    simp only [mem_cons, mem_append] at hy ⊢
    tauto
  · rw [mem_singleton.mp hb']
    refine ⟨Mem.write_self _ _ _, ?_, fun hu => ?_⟩
    · exact ((h.write_word _ hba hba .size CHUNK.IsData.isUsed.lt
        (.inr CHUNK.size_ne_isUsed.symm)).trans (unlink_data h hm hcm hcf hba .isUsed)).trans
          (hm.used b (mem_blocks hbm))
    · rw [hb] at hu
      cases hu
  · exact (h.write_word _ hba ha .size ho (.inl (hne b mem_cons_self))).trans
      (unlink_word h hm hcm hcf ha ho hoff hoff')

section Link

variable {m3 : Mem} {f₁ f₂ : List Nat} {c' e : Block} (hmid : A.mid = pre ++ c :: post)
  (hfree : A.free = f₁ ++ c.addr :: f₂)
  (h' : WF { A with mid := pre ++ c' :: e :: post, free := f₁ ++ c.addr :: e.addr :: f₂ })
  (haddr : c'.addr = c.addr) (hea : RingAt m3 CHUNK.all e.addr [])
  (hef : RingAt m3 CHUNK.free e.addr [])
include hmid hfree h' haddr hea hef

omit hm in
/-- The second half of a split block is linked into both rings right after the first. -/
theorem link_split (hall : RingAt m3 CHUNK.all A.first (A.mid.map Block.addr ++ [A.last]))
    (hfr : RingAt m3 CHUNK.free A.first A.free) :
    let m' := dlistInsertAfter Mem.links
      (dlistInsertAfter Mem.links m3 (c.addr + CHUNK.all) (e.addr + CHUNK.all))
      (c.addr + CHUNK.free) (e.addr + CHUNK.free)
    RingAt m' CHUNK.all A.first
        (pre.map Block.addr ++ c.addr :: e.addr :: (post.map Block.addr ++ [A.last])) ∧
      RingAt m' CHUNK.free A.first (f₁ ++ c.addr :: e.addr :: f₂) ∧
      ∃ m₁, Relinked (e.addr :: A.first :: (A.mid.map Block.addr ++ [A.last])) CHUNK.all m3 m₁ ∧
        Relinked (e.addr :: A.first :: A.free) CHUNK.free m₁ m' := by
  -- the headers are the old ones and that of `e`
  obtain ⟨hperm, hnew⟩ := split_addrs h' hmid haddr
  have hsub : ∀ {l : List Nat}, (∀ y ∈ l, y ∈ A.addrs) → ∀ y ∈ e.addr :: l, _ :=
    fun hl y hy => hperm.mem_iff.mpr (cons_subset_cons _ hl hy)
  have hnd : ∀ {l : List Nat}, l.Nodup → (∀ y ∈ l, y ∈ A.addrs) → (e.addr :: l).Nodup :=
    fun hl hs => nodup_cons.mpr ⟨fun hm => hnew (hs _ hm), hl⟩
  have hlist := ring_split hmid
  have hlink := h'.link (hlist ▸ hall) hea (hfree ▸ hfr) hef
    (hlist ▸ hnd (A.addrs_eq ▸ h.addrs_nodup) A.all_ring_subset)
    (hfree ▸ hnd h.free_ring_nodup h.free_ring_subset) (hlist ▸ hsub A.all_ring_subset)
    (hfree ▸ hsub h.free_ring_subset)
  rw [← hlist, ← hfree] at hlink
  exact hlink

/-- The arena with the second half linked in, from the headers of the two halves. -/
theorem holds_link (hc : HeaderAt m3 c') (hcu : c'.used = false) (he : HeaderAt m3 e)
    (heu : e.used = false)
    (hold : ∀ {a o : Nat}, a ∈ A.addrs → o < CHUNK.sizeof → (a ≠ c.addr ∨ o ≠ CHUNK.size) →
      m3 (a + o) = m (a + o)) :
    Holds (dlistInsertAfter Mem.links
        (dlistInsertAfter Mem.links m3 (c.addr + CHUNK.all) (e.addr + CHUNK.all))
        (c.addr + CHUNK.free) (e.addr + CHUNK.free))
      { A with mid := pre ++ c' :: e :: post, free := f₁ ++ c.addr :: e.addr :: f₂ } := by
  have hall3 : RingAt m3 _ _ _ := hm.all.congr_data .all fun y hy _ ho hoff =>
    hold (A.all_ring_subset y hy) ho (.inr (hoff _ .size))
  have hfree3 : RingAt m3 _ _ _ := hm.free.congr_data .free fun y hy _ ho hoff =>
    hold (h.free_ring_subset y hy) ho (.inr (hoff _ .size))
  obtain ⟨hall5, hfree5, m4, hm4, hm5⟩ := link_split h hmid hfree h' haddr hea hef hall3 hfree3
  obtain ⟨hperm, hnew⟩ := split_addrs h' hmid haddr
  have hsub : ∀ y ∈ e.addr :: A.addrs, _ := fun y hy => hperm.mem_iff.mpr hy
  have hw5 : ∀ {b o : Nat}, b ∈ e.addr :: A.addrs → o < CHUNK.sizeof →
      CHUNK.OffNode CHUNK.all o →
      (b ∈ e.addr :: A.first :: A.free → CHUNK.OffNode CHUNK.free o) → _ := fun hb =>
    h'.relinked_both (fun y hy => hsub y (cons_subset_cons _ A.all_ring_subset hy))
      (fun y hy => hsub y (cons_subset_cons _ h.free_ring_subset hy)) hm4 hm5 (hsub _ hb)
  have hheader : ∀ {b : Block}, b.addr ∈ e.addr :: A.addrs → b.used = false → HeaderAt m3 b →
      HeaderAt _ b := fun hb hbu hh =>
    ⟨(hw5 hb CHUNK.IsData.size.lt (CHUNK.IsData.size.off .all)
        fun _ => CHUNK.IsData.size.off .free).trans hh.size,
      (hw5 hb CHUNK.IsData.isUsed.lt (CHUNK.IsData.isUsed.off .all)
        fun _ => CHUNK.IsData.isUsed.off .free).trans hh.used,
      fun hu => nomatch hbu.symm.trans hu⟩
  refine hm.replace h pre [c] [c', e] post hmid ?_ hfree5 (fun b hb => ?_)
    fun hb hne ho hoff hoff' => ?_
  · simpa [haddr] using hall5
  · rcases mem_pair.mp hb with rfl | rfl
    · refine hheader (mem_cons_of_mem _ ?_) hcu hc
      rw [haddr]
      exact mem_addrs (mem_mid hmid)
    · exact hheader mem_cons_self heu he
  · have hbe := ne_of_mem_of_not_mem hb hnew
    exact (hw5 (mem_cons_of_mem _ hb) ho hoff fun hmem =>
      hoff' ((mem_cons.mp hmem).resolve_left hbe)).trans
        (hold hb ho (.inl (hne c mem_cons_self)))

end Link

/-- `chunk_slice` on the memory: `m1` is the memory after `chunk_init` of the
second half; then both sizes are set and the second half is linked into both
rings right after the first. -/
theorem holds_split {m1 : Mem} {s x : Nat} (hmid : A.mid = pre ++ c :: post)
    (hfree : A.free = f₁ ++ c.addr :: f₂) (hc : c.used = false)
    (hsz : CHUNK.sizeof + s + CHUNK.sizeof ≤ c.size) (hx : x = c.addr + (CHUNK.sizeof + s))
    (hxa : RingAt m1 CHUNK.all x []) (hxf : RingAt m1 CHUNK.free x [])
    (hxu : m1 (x + CHUNK.isUsed) = 0)
    (hm1 : ∀ {a o : Nat}, a ∈ A.addrs → o < CHUNK.sizeof → m1 (a + o) = m (a + o)) :
    Holds (dlistInsertAfter Mem.links (dlistInsertAfter Mem.links
        ((m1.write (x + CHUNK.size) (c.size - (CHUNK.sizeof + s))).write (c.addr + CHUNK.size)
          (CHUNK.sizeof + s)) (c.addr + CHUNK.all) (x + CHUNK.all))
        (c.addr + CHUNK.free) (x + CHUNK.free)) (A.cut pre c post f₁ f₂ s) := by
  subst hx
  have h' := wf_step h (Step.split hmid hfree hc hsz)
  unfold cut at h' ⊢
  generalize c.addr + (CHUNK.sizeof + s) = x at *
  obtain ⟨hperm, hxnot⟩ : _ ∧ x ∉ A.addrs := split_addrs h' hmid rfl
  have hsub : ∀ y ∈ x :: A.addrs, _ := fun y hy => hperm.mem_iff.mpr hy
  have hcm := mem_mid hmid
  have hcA := hsub c.addr (mem_cons_of_mem _ (mem_addrs hcm))
  have hxA := hsub x mem_cons_self
  -- the two size words
  have hw : ∀ {a o : Nat}, a ∈ x :: A.addrs → o < CHUNK.sizeof →
      (o ≠ CHUNK.size ∨ a ≠ x ∧ a ≠ c.addr) →
      (m1.write (x + CHUNK.size) (c.size - (CHUNK.sizeof + s))).write (c.addr + CHUNK.size)
          (CHUNK.sizeof + s) (a + o) = m1 (a + o) := by
    intro a o ha ho hne
    rw [h'.write_word _ hcA (hsub a ha) .size ho (by tauto),
      h'.write_word _ hxA (hsub a ha) .size ho (by tauto)]
  have hold : ∀ {a o : Nat}, a ∈ A.addrs → o < CHUNK.sizeof → (a ≠ c.addr ∨ o ≠ CHUNK.size) → _ :=
    fun {a o} ha ho hne => (hw (mem_cons_of_mem x ha) ho (by
      have hax : a ≠ x := ne_of_mem_of_not_mem ha hxnot
      tauto)).trans (hm1 ha ho)
  have hx : ∀ {o : Nat}, o < CHUNK.sizeof → o ≠ CHUNK.size → _ :=
    fun ho hne => hw (mem_cons_self (a := x)) ho (.inl hne)
  have hsc := Mem.write_self (m1.write (x + CHUNK.size) (c.size - (CHUNK.sizeof + s)))
    (c.addr + CHUNK.size) (CHUNK.sizeof + s)
  have hsx := h'.write_word (m := m1.write (x + CHUNK.size) (c.size - (CHUNK.sizeof + s)))
    (CHUNK.sizeof + s) hcA hxA .size CHUNK.IsData.size.lt
    (.inl fun he => hxnot (he ▸ mem_addrs hcm))
  rw [Mem.write_self] at hsx
  generalize (m1.write (x + CHUNK.size) (c.size - (CHUNK.sizeof + s))).write
      (c.addr + CHUNK.size) (CHUNK.sizeof + s) = m3 at *
  have hc3 : HeaderAt m3 ⟨c.addr, CHUNK.sizeof + s, false⟩ := by
    refine ⟨hsc, (hold (mem_addrs hcm) CHUNK.IsData.isUsed.lt
      (.inr CHUNK.size_ne_isUsed.symm)).trans ?_, nofun⟩
    rw [hm.used c (mem_blocks hcm), hc]
  have hx3 : HeaderAt m3 ⟨x, c.size - (CHUNK.sizeof + s), false⟩ :=
    ⟨hsx, (hx CHUNK.IsData.isUsed.lt CHUNK.size_ne_isUsed.symm).trans hxu, nofun⟩
  have hrings : ∀ {f : Nat}, CHUNK.IsNode f → RingAt m1 f x [] → RingAt m3 f x [] := by
    intro f hf hr
    refine hr.congr_data hf fun y hy _ ho hoff => ?_
    rw [mem_singleton.mp hy]
    exact hx ho (hoff _ .size)
  exact holds_link h hm hmid hfree h' rfl (hrings .all hxa) (hrings .free hxf) hc3 rfl hx3 rfl hold

end Moves

end Arena

end UnagiOs
