import UnagiOs.Theory.Rounding

/-!
# The memory pool of the USB driver (usb/memory.cpp)

`AllocMem` hands out the pool from the front. It rounds `alloc_ptr` up for the alignment, then on to
the next boundary if the block would reach over it, and only then looks whether there is room.
Nothing is ever given back. Addresses are 64-bit words, and `none` is `nullptr`.

- `allocMem_blocks`: along any requests, blocks lie in the pool, apart from each other, aligned, and
  on one side of every boundary. A pointer that has left the pool stays below the next multiple of
  2 GiB, the largest alignment there is, so that it cannot wrap around to the pool.
- `allocMem_failed_iff`: a request that fails is not noticed by later ones iff the pointer was
  aligned already, and on a boundary or the block does not reach the next one.
-/

namespace UnagiOs.Usb

/-! ## The model -/

/-- `kMemoryPoolSize`. -/
def kMemoryPoolSize : BitVec 64 := 4096 * 1024

/-- The arguments of `AllocMem`. -/
structure AllocRequest where
  size : BitVec 64
  alignment : BitVec 32
  boundary : BitVec 32

/-- `Ceil` for a `uintptr_t`. -/
def ceil (value : BitVec 64) (alignment : BitVec 32) : BitVec 64 :=
  (value + alignment.setWidth 64 - 1) &&& ~~~ (alignment - 1).setWidth 64

/-- `alloc_ptr` when `AllocMem` looks whether there is room. -/
def place (allocPtr : BitVec 64) (r : AllocRequest) : BitVec 64 :=
  let allocPtr := if r.alignment > 0 then ceil allocPtr r.alignment else allocPtr
  if r.boundary > 0 then
    let nextBoundary := ceil allocPtr r.boundary
    if nextBoundary < allocPtr + r.size then nextBoundary else allocPtr
  else allocPtr

section Pool

variable (memoryPool : BitVec 64)

/-- `AllocMem`, with `alloc_ptr` after it. -/
def allocMem (allocPtr : BitVec 64) (r : AllocRequest) : Option (BitVec 64) × BitVec 64 :=
  let allocPtr := place allocPtr r
  if memoryPool + kMemoryPoolSize < allocPtr + r.size then (none, allocPtr)
  else (some allocPtr, allocPtr + r.size)

/-- Requests one after the other, each with what it gets. -/
def allocMems : BitVec 64 → List AllocRequest → List (AllocRequest × Option (BitVec 64))
  | _, [] => []
  | allocPtr, r :: rs =>
    (r, (allocMem memoryPool allocPtr r).1) :: allocMems (allocMem memoryPool allocPtr r).2 rs

end Pool

/-! ## What requests and blocks are like -/

/-- 0 or a power of two. -/
def ZeroOrPow (a : BitVec 32) : Prop := a = 0 ∨ ∃ k, a.toNat = 2 ^ k

/-- Alignment and boundary are 0 or powers of two. -/
structure AllocRequest.Powers (r : AllocRequest) : Prop where
  alignment : ZeroOrPow r.alignment
  boundary : ZeroOrPow r.boundary

/-- The byte at `a` belongs to the block. -/
def InBlock (p : BitVec 64) (r : AllocRequest) (a : Nat) : Prop :=
  p.toNat ≤ a ∧ a < p.toNat + r.size.toNat

/-- What is promised of a block. -/
structure BlockOk (memoryPool p : BitVec 64) (r : AllocRequest) : Prop where
  inside : memoryPool.toNat ≤ p.toNat ∧
    p.toNat + r.size.toNat ≤ memoryPool.toNat + kMemoryPoolSize.toNat
  aligned : r.alignment > 0 → r.alignment.toNat ∣ p.toNat
  uncrossed : 0 < r.size.toNat → r.size.toNat ≤ r.boundary.toNat →
    ∀ m, r.boundary.toNat ∣ m → ¬ (p.toNat < m ∧ m < p.toNat + r.size.toNat)

/-! ## Rounding -/

section Ceil

variable {value : BitVec 64} {alignment : BitVec 32} {k : Nat}

theorem pow_lt (hk : alignment.toNat = 2 ^ k) : k < 32 :=
  (Nat.pow_lt_pow_iff_right (by decide)).mp (hk ▸ alignment.isLt)

theorem pos_of_pow (hk : alignment.toNat = 2 ^ k) : alignment > 0 := by
  have hpos : 0 < 2 ^ k := Nat.two_pow_pos k
  rw [gt_iff_lt, BitVec.lt_def, hk]
  exact hpos

/-- The mask cuts the low bits off. -/
theorem toNat_ceil (hk : alignment.toNat = 2 ^ k) :
    (ceil value alignment).toNat = (value.toNat + 2 ^ k - 1) % 2 ^ 64 / 2 ^ k * 2 ^ k := by
  have hlt := pow_lt hk
  have hpos : 0 < 2 ^ k := Nat.two_pow_pos k
  have hmask : (alignment - 1).setWidth 64 = BitVec.ofNat 64 (2 ^ k - 1) := by
    refine BitVec.eq_of_toNat_eq ?_
    have hsmall : 2 ^ k < 2 ^ 32 := hk ▸ alignment.isLt
    rw [BitVec.toNat_setWidth, BitVec.toNat_sub, hk, BitVec.toNat_ofNat]
    have hone : (1 : BitVec 32).toNat = 1 := rfl
    omega
  rw [ceil, hmask, toNat_and_not_mask _ (by omega)]
  congr 2
  have hsmall : 2 ^ k < 2 ^ 32 := hk ▸ alignment.isLt
  have hone : (1 : BitVec 64).toNat = 1 := rfl
  rw [BitVec.toNat_sub, BitVec.toNat_add, BitVec.toNat_setWidth, hk, hone]
  omega

theorem dvd_ceil (hk : alignment.toNat = 2 ^ k) :
    alignment.toNat ∣ (ceil value alignment).toNat := by
  rw [toNat_ceil hk, hk]
  exact Nat.dvd_mul_left _ _

/-- Without wrapping around. -/
theorem ceil_eq_roundUp (hk : alignment.toNat = 2 ^ k) (hlt : value.toNat + 2 ^ k ≤ 2 ^ 64) :
    (ceil value alignment).toNat = roundUp value.toNat (2 ^ k) := by
  have hpos : 0 < 2 ^ k := Nat.two_pow_pos k
  rw [toNat_ceil hk, Nat.mod_eq_of_lt (by omega), roundUp]

/-- What is aligned stays, and so far up nothing wraps around. -/
theorem ceil_of_dvd (hk : alignment.toNat = 2 ^ k) (h : alignment.toNat ∣ value.toNat) :
    ceil value alignment = value := by
  have hpow : 2 ^ k * 2 ^ (64 - k) = 2 ^ 64 := by
    have hlt := pow_lt hk
    rw [← Nat.pow_add]
    congr 1
    omega
  refine BitVec.eq_of_toNat_eq ?_
  rw [hk] at h
  have hroom : value.toNat + 2 ^ k ≤ 2 ^ 64 := by
    obtain ⟨q, hq⟩ := h
    have hlt := value.isLt
    rw [hq, ← hpow] at hlt ⊢
    have hq' : q + 1 ≤ 2 ^ (64 - k) := Nat.lt_of_mul_lt_mul_left hlt
    calc 2 ^ k * q + 2 ^ k = 2 ^ k * (q + 1) := (Nat.mul_succ _ _).symm
      _ ≤ 2 ^ k * 2 ^ (64 - k) := Nat.mul_le_mul_left _ hq'
  rw [ceil_eq_roundUp hk hroom, roundUp_of_dvd (Nat.two_pow_pos k) h]

theorem ceil_eq_self_iff (hk : alignment.toNat = 2 ^ k) :
    ceil value alignment = value ↔ alignment.toNat ∣ value.toNat := by
  refine ⟨fun h => ?_, ceil_of_dvd hk⟩
  rw [← h]
  exact dvd_ceil hk

end Ceil

/-! ## Blocks -/

section Blocks

variable {value allocPtr p : BitVec 64} {alignment : BitVec 32} {r : AllocRequest} {limit : Nat}

/-- Rounding up below a multiple of 2 GiB. -/
theorem ceil_spec {k : Nat} (hk : alignment.toNat = 2 ^ k) (hlimit : 2 ^ 31 ∣ limit)
    (hroom : limit + 2 ^ 31 ≤ 2 ^ 64) (hv : value.toNat ≤ limit) :
    value.toNat ≤ (ceil value alignment).toNat ∧ (ceil value alignment).toNat ≤ limit ∧
      ∀ m, alignment.toNat ∣ m → value.toNat ≤ m → (ceil value alignment).toNat ≤ m := by
  have hpos : 0 < 2 ^ k := Nat.two_pow_pos k
  have hk31 : k ≤ 31 := Nat.lt_succ_iff.mp (pow_lt hk)
  have hdvd : 2 ^ k ∣ 2 ^ 31 := Nat.pow_dvd_pow 2 hk31
  have hle : 2 ^ k ≤ 2 ^ 31 := Nat.le_of_dvd (by decide) hdvd
  rw [ceil_eq_roundUp hk (by omega), hk]
  exact ⟨le_roundUp _ hpos, roundUp_le hpos hv (hdvd.trans hlimit),
    fun m hm hvm => roundUp_le hpos hvm hm⟩

/-- The jump to the boundary keeps the alignment: of two powers of two one divides the other. -/
theorem place_aligned (hr : r.Powers) (hpos : r.alignment > 0) :
    r.alignment.toNat ∣ (place allocPtr r).toNat := by
  obtain ⟨j, hj⟩ := hr.alignment.resolve_left fun h0 => by
    rw [h0] at hpos
    exact absurd hpos (by decide)
  have haligned : r.alignment.toNat ∣ (ceil allocPtr r.alignment).toNat := dvd_ceil hj
  simp only [place, if_pos hpos]
  split
  · next hboundary =>
    obtain ⟨k, hk⟩ := hr.boundary.resolve_left fun h0 => by
      rw [h0] at hboundary
      exact absurd hboundary (by decide)
    split
    · rcases Nat.le_total j k with hjk | hkj
      · have hdvd : r.alignment.toNat ∣ r.boundary.toNat := by
          rw [hj, hk]
          exact Nat.pow_dvd_pow 2 hjk
        exact hdvd.trans (dvd_ceil hk)
      · have hdvd : r.boundary.toNat ∣ r.alignment.toNat := by
          rw [hj, hk]
          exact Nat.pow_dvd_pow 2 hkj
        rw [ceil_of_dvd hk (hdvd.trans haligned)]
        exact haligned
    · exact haligned
  · exact haligned

theorem toNat_kMemoryPoolSize : kMemoryPoolSize.toNat = 4194304 := rfl

/-- Where a block is put. -/
theorem place_spec (hr : r.Powers) (hsize : r.size ≤ kMemoryPoolSize) (hlimit : 2 ^ 31 ∣ limit)
    (hroom : limit + 2 ^ 31 ≤ 2 ^ 64) (hp : allocPtr.toNat ≤ limit) :
    allocPtr.toNat ≤ (place allocPtr r).toNat ∧ (place allocPtr r).toNat ≤ limit ∧
      (0 < r.size.toNat → r.size.toNat ≤ r.boundary.toNat → ∀ m, r.boundary.toNat ∣ m →
        ¬ ((place allocPtr r).toNat < m ∧ m < (place allocPtr r).toNat + r.size.toNat)) := by
  -- after the alignment
  obtain ⟨a, ha, hle, halimit⟩ : ∃ a : BitVec 64,
      a = (if r.alignment > 0 then ceil allocPtr r.alignment else allocPtr) ∧
      allocPtr.toNat ≤ a.toNat ∧ a.toNat ≤ limit := by
    refine ⟨_, rfl, ?_⟩
    rcases hr.alignment with h0 | ⟨k, hk⟩
    · have hzero : ¬ r.alignment > 0 := by rw [h0]; decide
      rw [if_neg hzero]
      exact ⟨Nat.le_refl _, hp⟩
    · rw [if_pos (pos_of_pow hk)]
      obtain ⟨hle, hlim, -⟩ := ceil_spec hk hlimit hroom hp
      exact ⟨hle, hlim⟩
  rw [BitVec.le_def, toNat_kMemoryPoolSize] at hsize
  have hsum : (a + r.size).toNat = a.toNat + r.size.toNat := by
    rw [BitVec.toNat_add]
    exact Nat.mod_eq_of_lt (by omega)
  simp only [place, ← ha]
  rcases hr.boundary with h0 | ⟨k, hk⟩
  · have hzero : ¬ r.boundary > 0 := by rw [h0]; decide
    rw [if_neg hzero]
    refine ⟨hle, halimit, fun hpos hsmall => ?_⟩
    rw [h0] at hsmall
    exact absurd hpos (Nat.not_lt.mpr hsmall)
  · rw [if_pos (pos_of_pow hk)]
    obtain ⟨hnle, hnlimit, hnleast⟩ := ceil_spec hk hlimit hroom halimit
    have hndvd : r.boundary.toNat ∣ (ceil a r.boundary).toNat := dvd_ceil hk
    by_cases hover : ceil a r.boundary < a + r.size
    · rw [if_pos hover]
      refine ⟨hle.trans hnle, hnlimit, fun _ hsmall m hm hcross => ?_⟩
      have hgap := Nat.le_of_dvd (by omega) (Nat.dvd_sub hm hndvd)
      omega
    · rw [if_neg hover]
      refine ⟨hle, halimit, fun _ _ m hm hcross => ?_⟩
      rw [BitVec.lt_def, hsum] at hover
      have hnext := hnleast m hm (Nat.le_of_lt hcross.1)
      omega

end Blocks

section Run

variable {memoryPool allocPtr p : BitVec 64} {r : AllocRequest}

/-- How far `alloc_ptr` gets. -/
def farthest (memoryPool : BitVec 64) : Nat :=
  roundUp (memoryPool.toNat + kMemoryPoolSize.toNat) (2 ^ 31)

/-- The pool does not end in the last 2 GiB of the address space. -/
def PoolLow (memoryPool : BitVec 64) : Prop :=
  memoryPool.toNat + kMemoryPoolSize.toNat + 2 ^ 31 ≤ 2 ^ 64

theorem PoolLow.farthest (h : PoolLow memoryPool) :
    2 ^ 31 ∣ farthest memoryPool ∧ farthest memoryPool + 2 ^ 31 ≤ 2 ^ 64 ∧
      memoryPool.toNat + kMemoryPoolSize.toNat ≤ farthest memoryPool := by
  have hdvd : 2 ^ 31 ∣ Usb.farthest memoryPool := dvd_roundUp _ _
  have hlt : Usb.farthest memoryPool < _ := roundUp_lt _ (by decide)
  refine ⟨hdvd, ?_, le_roundUp _ (by decide)⟩
  rw [PoolLow] at h
  omega

/-- **One request.** The pointer never goes back, and a block is as promised. -/
theorem allocMem_spec (hpool : PoolLow memoryPool) (hr : r.Powers)
    (hsize : r.size ≤ kMemoryPoolSize) (hlow : memoryPool.toNat ≤ allocPtr.toNat)
    (hhigh : allocPtr.toNat ≤ farthest memoryPool) :
    allocPtr.toNat ≤ (allocMem memoryPool allocPtr r).2.toNat ∧
      (allocMem memoryPool allocPtr r).2.toNat ≤ farthest memoryPool ∧
      ∀ p ∈ (allocMem memoryPool allocPtr r).1, BlockOk memoryPool p r ∧
        allocPtr.toNat ≤ p.toNat ∧
        p.toNat + r.size.toNat ≤ (allocMem memoryPool allocPtr r).2.toNat := by
  obtain ⟨hdvd, hroom, hend⟩ := hpool.farthest
  obtain ⟨hle, hlimit, huncrossed⟩ := place_spec hr hsize hdvd hroom hhigh
  rw [BitVec.le_def, toNat_kMemoryPoolSize] at hsize
  have hsum : (place allocPtr r + r.size).toNat = (place allocPtr r).toNat + r.size.toNat := by
    rw [BitVec.toNat_add]
    exact Nat.mod_eq_of_lt (by omega)
  have hpoolEnd : (memoryPool + kMemoryPoolSize).toNat =
      memoryPool.toNat + kMemoryPoolSize.toNat := by
    rw [BitVec.toNat_add]
    rw [PoolLow] at hpool
    exact Nat.mod_eq_of_lt (by omega)
  rw [allocMem]
  by_cases hfull : memoryPool + kMemoryPoolSize < place allocPtr r + r.size
  · simp only [if_pos hfull]
    exact ⟨hle, hlimit, nofun⟩
  · simp only [if_neg hfull]
    rw [BitVec.lt_def, hsum, hpoolEnd, Nat.not_lt] at hfull
    rw [hsum]
    refine ⟨hle.trans (Nat.le_add_right _ _), hfull.trans hend, fun p hp => ?_⟩
    cases hp
    exact ⟨⟨⟨hlow.trans hle, hfull⟩, place_aligned hr, huncrossed⟩, hle, Nat.le_refl _⟩

/-- Blocks from `start` on, one after the other. -/
structure BlocksFrom (memoryPool : BitVec 64) (start : Nat)
    (xs : List (AllocRequest × Option (BitVec 64))) : Prop where
  ok : ∀ x ∈ xs, ∀ p ∈ x.2, BlockOk memoryPool p x.1 ∧ start ≤ p.toNat
  ordered : xs.Pairwise fun x y => ∀ p ∈ x.2, ∀ q ∈ y.2, p.toNat + x.1.size.toNat ≤ q.toNat

theorem BlocksFrom.cons {xs : List (AllocRequest × Option (BitVec 64))} {start next : Nat}
    {res : Option (BitVec 64)} (h : BlocksFrom memoryPool next xs) (hle : start ≤ next)
    (hres : ∀ p ∈ res, BlockOk memoryPool p r ∧ start ≤ p.toNat ∧
      p.toNat + r.size.toNat ≤ next) : BlocksFrom memoryPool start ((r, res) :: xs) := by
  constructor
  · rw [List.forall_mem_cons]
    refine ⟨fun p hp => ?_, fun x hx p hp => ?_⟩
    · obtain ⟨hok, hstart, -⟩ := hres p hp
      exact ⟨hok, hstart⟩
    · obtain ⟨hok, hnext⟩ := h.ok x hx p hp
      exact ⟨hok, hle.trans hnext⟩
  · rw [List.pairwise_cons]
    refine ⟨fun y hy p hp q hq => ?_, h.ordered⟩
    exact (hres p hp).2.2.trans (h.ok y hy q hq).2

/-- **Requests from any state on.** -/
theorem allocMems_spec (hpool : PoolLow memoryPool) {rs : List AllocRequest}
    (hrs : ∀ r ∈ rs, r.Powers ∧ r.size ≤ kMemoryPoolSize)
    (hlow : memoryPool.toNat ≤ allocPtr.toNat) (hhigh : allocPtr.toNat ≤ farthest memoryPool) :
    BlocksFrom memoryPool allocPtr.toNat (allocMems memoryPool allocPtr rs) := by
  induction rs generalizing allocPtr with
  | nil =>
    rw [allocMems]
    exact ⟨fun x hx => absurd hx List.not_mem_nil, .nil⟩
  | cons r rs ih =>
    obtain ⟨⟨hr, hsize⟩, hrs⟩ := List.forall_mem_cons.mp hrs
    obtain ⟨hle, hlimit, hblock⟩ := allocMem_spec hpool hr hsize hlow hhigh
    rw [allocMems]
    exact (ih hrs (hlow.trans hle) hlimit).cons hle hblock

end Run

/-- **The blocks of any requests**, failed ones among them: in the pool, aligned, on one side of
each boundary, and no two of them with a byte in common. -/
theorem allocMem_blocks {memoryPool : BitVec 64} (hpool : PoolLow memoryPool)
    (rs : List AllocRequest) (hrs : ∀ r ∈ rs, r.Powers ∧ r.size ≤ kMemoryPoolSize) :
    (∀ x ∈ allocMems memoryPool memoryPool rs, ∀ p ∈ x.2, BlockOk memoryPool p x.1) ∧
      (allocMems memoryPool memoryPool rs).Pairwise fun x y =>
        ∀ p ∈ x.2, ∀ q ∈ y.2, ∀ a, ¬ (InBlock p x.1 a ∧ InBlock q y.1 a) := by
  have hhigh : memoryPool.toNat ≤ farthest memoryPool :=
    (Nat.le_add_right _ _).trans hpool.farthest.2.2
  have hblocks := allocMems_spec hpool hrs (Nat.le_refl _) hhigh
  refine ⟨fun x hx p hp => (hblocks.ok x hx p hp).1,
    hblocks.ordered.imp fun h p hp q hq a hin => ?_⟩
  have hle := h p hp q hq
  obtain ⟨⟨-, hend⟩, hstart, -⟩ := hin
  omega

/-- The pool at 1 MiB, with a device context, a request for all of it, which fails, and a ring. -/
theorem allocMem_blocks_ring :
    (allocMems 0x100000 0x100000 [⟨64, 64, 4096⟩, ⟨0x400000, 0, 0⟩, ⟨4096, 64, 4096⟩]).map
        Prod.snd = [some 0x100000, none, some 0x101000] ∧
      (allocMems 0x100000 0x100000 [⟨64, 64, 4096⟩, ⟨0x400000, 0, 0⟩, ⟨4096, 64, 4096⟩]).Pairwise
        fun x y => ∀ p ∈ x.2, ∀ q ∈ y.2, ∀ a, ¬ (InBlock p x.1 a ∧ InBlock q y.1 a) := by
  refine ⟨by decide, (allocMem_blocks (by unfold PoolLow; decide) _ ?_).2⟩
  simp only [List.forall_mem_cons, List.not_mem_nil, false_implies, implies_true, and_true]
  refine ⟨⟨⟨.inr ⟨6, rfl⟩, .inr ⟨12, rfl⟩⟩, by decide⟩, ⟨⟨.inl rfl, .inl rfl⟩, by decide⟩,
    ⟨⟨.inr ⟨6, rfl⟩, .inr ⟨12, rfl⟩⟩, by decide⟩⟩

/-! ## Failed requests -/

section Failed

variable {memoryPool allocPtr allocPtr' : BitVec 64} {r : AllocRequest}

/-- Requests tell states apart: the one for the bytes up to the end of the address space gets the
pointer itself. -/
theorem allocMems_eq_iff : (∀ rs, allocMems memoryPool allocPtr rs =
    allocMems memoryPool allocPtr' rs) ↔ allocPtr = allocPtr' := by
  refine ⟨fun h => ?_, fun h rs => by rw [h]⟩
  have hrest := h [⟨-allocPtr, 0, 0⟩]
  simp only [allocMems, List.cons.injEq, Prod.mk.injEq, true_and, and_true] at hrest
  have hplace : ∀ q : BitVec 64, place q ⟨-allocPtr, 0, 0⟩ = q := fun _ => rfl
  have hget : (allocMem memoryPool allocPtr ⟨-allocPtr, 0, 0⟩).1 = some allocPtr := by
    have hfits : ¬ memoryPool + kMemoryPoolSize < allocPtr + -allocPtr := by
      rw [BitVec.add_right_neg]
      exact BitVec.not_lt_zero
    rw [allocMem, hplace, if_neg hfits]
  have hsame : (allocMem memoryPool allocPtr' ⟨-allocPtr, 0, 0⟩).1 = some allocPtr := by
    rw [← hget]
    exact hrest.symm
  rw [allocMem, hplace] at hsame
  split at hsame
  · cases hsame
  · exact (Option.some.inj hsame).symm

/-- A rounding goes up by less than 4 GiB, or around the end of the address space. -/
theorem ceil_eq_add (value : BitVec 64) {alignment : BitVec 32} (hpos : alignment > 0) :
    ∃ d : BitVec 64, ceil value alignment = value + d ∧ d.toNat < 2 ^ 32 := by
  generalize hm : (alignment - 1).setWidth 64 = m
  generalize hx : value + alignment.setWidth 64 - 1 = x
  -- the mask takes away what it covers
  have hsplit : (x &&& m) + (x &&& ~~~ m) = x := by
    rw [BitVec.add_eq_or_of_and_eq_zero]
    · ext i hi
      simp only [BitVec.getElem_or, BitVec.getElem_and, BitVec.getElem_not]
      cases x[i] <;> cases m[i] <;> rfl
    · ext i hi
      simp only [BitVec.getElem_and, BitVec.getElem_not, BitVec.getElem_zero]
      cases x[i] <;> cases m[i] <;> rfl
  have hle : (x &&& m).toNat ≤ m.toNat := by
    rw [BitVec.toNat_and]
    exact Nat.and_le_right
  have halign := alignment.isLt
  refine ⟨alignment.setWidth 64 - 1 - (x &&& m), ?_, ?_⟩
  · rw [ceil, hm, hx]
    have hceil : x &&& ~~~ m = x - (x &&& m) := by bv_omega
    rw [hceil, ← hx]
    bv_omega
  · bv_omega

/-- Two roundings that end where they began did nothing. -/
theorem eq_of_ceil_ceil {alignment boundary : BitVec 32} (ha : alignment > 0) (hb : boundary > 0)
    (h : ceil (ceil allocPtr alignment) boundary = allocPtr) :
    ceil allocPtr alignment = allocPtr := by
  obtain ⟨d, hd, hdlt⟩ := ceil_eq_add allocPtr ha
  obtain ⟨e, he, helt⟩ := ceil_eq_add (ceil allocPtr alignment) hb
  rw [h, hd] at he
  rw [hd]
  bv_omega

/-- Where the roundings have nothing to do. -/
theorem place_eq_self_iff : place allocPtr r = allocPtr ↔
    (r.alignment = 0 ∨ ceil allocPtr r.alignment = allocPtr) ∧
      (r.boundary = 0 ∨ ceil allocPtr r.boundary = allocPtr ∨
        allocPtr + r.size ≤ ceil allocPtr r.boundary) := by
  have hzero : ∀ a : BitVec 32, a > 0 ↔ a ≠ 0 := fun a => by bv_omega
  have hboundary : (if r.boundary > 0 then
      if ceil allocPtr r.boundary < allocPtr + r.size then ceil allocPtr r.boundary else allocPtr
      else allocPtr) = allocPtr ↔ r.boundary = 0 ∨ ceil allocPtr r.boundary = allocPtr ∨
        allocPtr + r.size ≤ ceil allocPtr r.boundary := by
    by_cases h0 : r.boundary = 0
    · rw [if_neg (by rw [hzero]; exact not_not_intro h0)]
      exact iff_of_true rfl (.inl h0)
    · rw [if_pos ((hzero _).mpr h0), or_iff_right h0, ← BitVec.not_lt]
      split
      · next hover => exact (or_iff_left (not_not_intro hover)).symm
      · next hover => exact iff_of_true rfl (.inr hover)
  by_cases h0 : r.alignment = 0
  · have hnpos : ¬ r.alignment > 0 := by rw [hzero]; exact not_not_intro h0
    simp only [place, if_neg hnpos]
    rw [hboundary, and_iff_right (.inl h0)]
  · have hpos := (hzero _).mpr h0
    by_cases hceil : ceil allocPtr r.alignment = allocPtr
    · simp only [place, if_pos hpos, hceil]
      rw [hboundary, and_iff_right (.inr trivial)]
    · refine iff_of_false (fun heq => hceil ?_) fun h => h.1.elim h0 hceil
      simp only [place, if_pos hpos] at heq
      split at heq
      · next hb =>
        split at heq
        · exact eq_of_ceil_ceil hpos hb heq
        · exact heq
      · exact heq

/-- **A failed request** goes unnoticed by all later requests iff the pointer was aligned already,
and the block starts on a boundary or does not reach over the next one. For powers of two, aligned
means divisible. -/
theorem allocMem_failed_iff (memoryPool allocPtr : BitVec 64) (r : AllocRequest)
    (hfail : (allocMem memoryPool allocPtr r).1 = none) :
    ((∀ rs, allocMems memoryPool (allocMem memoryPool allocPtr r).2 rs =
        allocMems memoryPool allocPtr rs) ↔
      (r.alignment = 0 ∨ ceil allocPtr r.alignment = allocPtr) ∧
        (r.boundary = 0 ∨ ceil allocPtr r.boundary = allocPtr ∨
          allocPtr + r.size ≤ ceil allocPtr r.boundary)) ∧
      ∀ a, (∃ k, a.toNat = 2 ^ k) → (ceil allocPtr a = allocPtr ↔ a.toNat ∣ allocPtr.toNat) := by
  have hplace : (allocMem memoryPool allocPtr r).2 = place allocPtr r := by
    rw [allocMem] at hfail ⊢
    split at hfail
    · next hfull => rw [if_pos hfull]
    · cases hfail
  rw [hplace]
  refine ⟨allocMems_eq_iff.trans place_eq_self_iff, fun a ha => ?_⟩
  obtain ⟨k, hk⟩ := ha
  exact ceil_eq_self_iff hk

/-- Two pages of which the pool has one left: the pointer is on a boundary and stays there. -/
theorem allocMem_failed_full : (allocMem 0x100000 0x4ff000 ⟨0x2000, 64, 4096⟩).1 = none ∧
    ∀ rs, allocMems 0x100000 (allocMem 0x100000 0x4ff000 ⟨0x2000, 64, 4096⟩).2 rs =
      allocMems 0x100000 0x4ff000 rs :=
  ⟨by decide, (allocMem_failed_iff 0x100000 0x4ff000 ⟨0x2000, 64, 4096⟩ (by decide)).1.mpr
    (by decide)⟩

/-- One byte is taken. Then 4 MiB aligned to 8 MiB cannot be had, and `alloc_ptr` is at 8 MiB
afterwards, behind the pool: the next byte, still free, is not given. -/
theorem allocMem_failed_loses : allocMem 0x100000 0x100000 ⟨1, 0, 0⟩ = (some 0x100000, 0x100001) ∧
    allocMem 0x100000 0x100001 ⟨0x400000, 0x800000, 0⟩ = (none, 0x800000) ∧
    (allocMem 0x100000 0x800000 ⟨1, 0, 0⟩).1 = none ∧
    (allocMem 0x100000 0x100001 ⟨1, 0, 0⟩).1 = some 0x100001 := by
  decide

end Failed

end UnagiOs.Usb
