import Mathlib.Algebra.GroupWithZero.Nat

/-!
# Page walks

A page table is a radix tree in memory. A walk goes down one level at a time: some bits of the
virtual address select an entry of the table, and a field of the entry is the address of the next
table, or of the page at the last level.

- `walk` and `walkEntries`: the physical address, and the entries read on the way.
- `IdentityTree`: the tree that maps a whole region to itself. `walk_identity_iff`: walks of all
  addresses of the region give the address back exactly if the tables form such a tree.
-/

namespace UnagiOs

/-! ## The walk -/

/-- One level of a page table: which bits of the address index it, how wide an entry is, and where
the address stands in an entry. -/
structure PageLevel where
  shift : Nat
  bits : Nat
  width : Nat
  mask : Nat

namespace PageLevel

/-- The index of an address in the table. -/
def index (L : PageLevel) (va : Nat) : Nat := va >>> L.shift % 2 ^ L.bits

/-- The entry of an address in the table at `base`. -/
def entry (L : PageLevel) (m : Nat → Nat) (base va : Nat) : Nat :=
  m (base + L.width * L.index va)

end PageLevel

/-- The entries that a walk reads, from the top level down. -/
def walkEntries (m : Nat → Nat) : List PageLevel → Nat → Nat → List Nat
  | [], _, _ => []
  | L :: Ls, base, va =>
    L.entry m base va :: walkEntries m Ls (L.entry m base va &&& L.mask) va

/-- The physical address: the page that the last entry names, and the `s` low bits of the virtual
address in it. -/
def walk (m : Nat → Nat) : Nat → List PageLevel → Nat → Nat → Nat
  | s, [], base, va => base + va % 2 ^ s
  | _, L :: Ls, base, va => walk m L.shift Ls (L.entry m base va &&& L.mask) va

/-- Each level takes up the bits right below the level above. -/
def Contiguous : Nat → List PageLevel → Prop
  | _, [] => True
  | s, L :: Ls => s = L.shift + L.bits ∧ Contiguous L.shift Ls

/-- The tables from `base` on map the addresses whose upper bits are `top` to themselves. -/
def IdentityTree (m : Nat → Nat) : Nat → List PageLevel → Nat → Nat → Prop
  | s, [], base, top => base = top * 2 ^ s
  | _, L :: Ls, base, top => ∀ i < 2 ^ L.bits,
      IdentityTree m L.shift Ls (m (base + L.width * i) &&& L.mask) (top * 2 ^ L.bits + i)

section Walk

variable {m : Nat → Nat} {s base top va : Nat} {L : PageLevel} {Ls : List PageLevel}

/-- The upper bits of an address at the level below. -/
theorem PageLevel.div_shift (hva : va / 2 ^ (L.shift + L.bits) = top) :
    va / 2 ^ L.shift = top * 2 ^ L.bits + L.index va := by
  rw [index, Nat.shiftRight_eq_div_pow, ← hva, Nat.pow_add, ← Nat.div_div_eq_div_mul, Nat.mul_comm]
  exact (Nat.div_add_mod _ _).symm

theorem IdentityTree.walk_eq (hc : Contiguous s Ls) (ht : IdentityTree m s Ls base top)
    (hva : va / 2 ^ s = top) : walk m s Ls base va = va := by
  induction Ls generalizing s base top with
  | nil =>
    rw [walk, show base = top * 2 ^ s from ht, ← hva, Nat.mul_comm]
    exact Nat.div_add_mod va (2 ^ s)
  | cons L Ls ih =>
    obtain ⟨rfl, hc'⟩ := hc
    exact ih hc' (ht (L.index va) (Nat.mod_lt _ (Nat.two_pow_pos _))) (PageLevel.div_shift hva)

/-- An address with given upper bits and a given index. -/
theorem PageLevel.index_of_div (htop : va / 2 ^ L.shift = top * 2 ^ L.bits + s)
    (hs : s < 2 ^ L.bits) : L.index va = s ∧ va / 2 ^ (L.shift + L.bits) = top := by
  constructor
  · rw [index, Nat.shiftRight_eq_div_pow, htop, Nat.mul_comm, Nat.mul_add_mod, Nat.mod_eq_of_lt hs]
  · rw [Nat.pow_add, ← Nat.div_div_eq_div_mul, htop, Nat.mul_comm,
      Nat.mul_add_div (Nat.two_pow_pos _), Nat.div_eq_of_lt hs, Nat.add_zero]

/-- **The walk is the identity on a region exactly if the tables form an identity tree.** -/
theorem walk_identity_iff (hc : Contiguous s Ls) :
    (∀ va, va / 2 ^ s = top → walk m s Ls base va = va) ↔ IdentityTree m s Ls base top := by
  refine ⟨fun hwalk => ?_, fun ht va hva => ht.walk_eq hc hva⟩
  induction Ls generalizing s base top with
  | nil =>
    -- the first address of the page
    have hfirst := hwalk (top * 2 ^ s) (Nat.mul_div_cancel _ (Nat.two_pow_pos s))
    rwa [walk, Nat.mul_mod_left, Nat.add_zero] at hfirst
  | cons L Ls ih =>
    obtain ⟨rfl, hc'⟩ := hc
    refine fun i hi => ih hc' fun va hva => ?_
    obtain ⟨hindex, hdiv⟩ := PageLevel.index_of_div hva hi
    have hva' := hwalk va hdiv
    rwa [walk, PageLevel.entry, hindex] at hva'

end Walk

end UnagiOs
