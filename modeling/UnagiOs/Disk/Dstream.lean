import UnagiOs.Theory.Slots
import UnagiOs.Theory.Words
import UnagiOs.Util.Fifo

/-!
# Reading a stream of bytes from a disk (disk/dstream.c)

`dstream_read` reads one sector, takes from it what it has of the bytes asked for, and calls
itself for the rest. A disk is a `BlockDevice`: it answers each `disk_read_block` of a sector, in
any way that its state allows.

- `dstreamRead_exact`: on a disk that delivers every sector, any reads one after the other give
  the bytes of the disk, seamlessly.
- `dstreamRead_honest_iff`: the result of the inner call is stored and never looked at. So a
  sector that cannot be read is reported exactly if it is the first one.
-/

namespace UnagiOs

/-- `OS_DISK_SECTOR_SIZE`. -/
def osDiskSectorSize : Int := 512

/-- `disk_read_block` of one sector: what it returns and the bytes from `buf` on. Only 0 to 511 are
its own; the others are what lies around `buf`. -/
structure BlockDevice (σ : Type) where
  readBlock : σ → Nat → σ × Int × (Int → UInt8)

/-- A stream with its disk, and the memory that `dstream_read` writes to. -/
structure DiskStream (σ : Type) where
  disk : σ
  pos : Int
  mem : Nat → UInt8
  /-- where `out` points -/
  out : Nat
  /-- what the reads of sectors have returned -/
  results : List Int

/-! ## The model -/

/-- `offset_start`. -/
def offsetStart (pos : Int) : Int := pos.tmod osDiskSectorSize

/-- The sector `sector_start`, as the unsigned argument of `disk_read_block`. -/
def sectorStart (pos : Int) : Nat := (pos.tdiv osDiskSectorSize % 2 ^ 32).toNat

/-- `bytes_to_read`. -/
def bytesToRead (pos total : Int) : Int :=
  if i32 (offsetStart pos + total) < osDiskSectorSize then total
  else osDiskSectorSize - offsetStart pos

variable {σ : Type} (D : BlockDevice σ)

namespace DiskStream

/-- `dstream_seek`, of a stream that is not null. -/
def dstreamSeek (s : DiskStream σ) (pos : Int) : DiskStream σ × Int := ({ s with pos := pos }, 0)

/-- `disk_read_block(dstream->disk, sector_start, 1, buf)` -/
def readSector (s : DiskStream σ) : DiskStream σ × Int × (Int → UInt8) :=
  let (disk, res, buf) := D.readBlock s.disk (sectorStart s.pos)
  ({ s with disk := disk, results := s.results ++ [res] }, res, buf)

/-- The loop that copies to `out`, and `dstream->pos += bytes_to_read`. -/
def take (s : DiskStream σ) (buf : Int → UInt8) (total : Int) : DiskStream σ :=
  let bytes := bytesToRead s.pos total
  { s with
    mem := fillSlots s.mem s.out (fun i => buf (offsetStart s.pos + i)) bytes.toNat
    out := s.out + bytes.toNat
    pos := i32 (s.pos + bytes) }

/-- `dstream_read`, stuck if it calls itself more than `n` times. -/
def readWithin : Nat → DiskStream σ → Int → Option (DiskStream σ × Int)
  | 0, _, _ => none
  | n + 1, s, total =>
    let (s, res, buf) := s.readSector D
    if res < 0 then some (s, -eio)
    else
      let bytes := bytesToRead s.pos total
      let s := s.take buf total
      -- `res` gets the result of the call, and the function returns 0
      if total > bytes then (readWithin n s (total - bytes)).map fun r => (r.1, 0)
      else some (s, 0)

/-- `dstream_read`. -/
def dstreamRead (s : DiskStream σ) (total : Int) : Option (DiskStream σ × Int) :=
  readWithin D (total.toNat + 1) s total

/-- Reads one after the other, as long as they return 0. -/
def dstreamReads : DiskStream σ → List Nat → Option (DiskStream σ)
  | s, [] => some s
  | s, n :: ns =>
    match s.dstreamRead D n with
    | some (s, 0) => dstreamReads s ns
    | _ => none

end DiskStream

/-! ## What a read is for -/

/-- The disk delivers every sector of 28-bit addresses, in every state. -/
def BlockDevice.Delivers (bytes : Nat → UInt8) : Prop :=
  ∀ d lba, lba < 2 ^ 28 → 0 ≤ (D.readBlock d lba).2.1 ∧
    ∀ j : Nat, j < 512 → (D.readBlock d lba).2.2 j = bytes (512 * lba + j)

namespace DiskStream

/-- The next `total` bytes of the disk were written from `out` on, and nothing else. -/
structure Exact (bytes : Nat → UInt8) (s : DiskStream σ) (total : Nat) (s' : DiskStream σ) :
    Prop where
  pos : s'.pos = s.pos + total
  out : s'.out = s.out + total
  mem : ∀ k, s'.mem k =
    if s.out ≤ k ∧ k < s.out + total then bytes (s.pos.toNat + (k - s.out)) else s.mem k

/-- A read tells the truth about the sectors that it reads: it returns 0 only if all reads have
succeeded, and an error if one has failed. -/
def Honest (s : DiskStream σ) (total : Int) : Prop :=
  ∃ s' ret, s.dstreamRead D total = some (s', ret) ∧ ∃ results, s'.results = s.results ++ results ∧
    (ret = 0 → ∀ res ∈ results, 0 ≤ res) ∧ ((∃ res ∈ results, res < 0) → ret < 0)

end DiskStream

/-! ## The bytes of one sector -/

section Sector

variable {pos total : Int}

theorem offsetStart_eq (hpos : 0 ≤ pos) : offsetStart pos = pos % 512 :=
  Int.tmod_eq_emod_of_nonneg hpos

theorem sectorStart_eq (hpos : 0 ≤ pos) (hlt : pos < 2 ^ 31) :
    sectorStart pos = pos.toNat / 512 := by
  rw [sectorStart, osDiskSectorSize, Int.tdiv_eq_ediv_of_nonneg hpos]
  omega

/-- What the sector has of the bytes asked for. -/
theorem bytesToRead_eq (hpos : 0 ≤ pos) (htotal : 0 ≤ total) (hend : pos + total < 2 ^ 31) :
    bytesToRead pos total = min total (512 - pos % 512) := by
  have hwrap : i32 (pos % 512 + total) = pos % 512 + total := i32_of_bounds (by omega) (by omega)
  rw [bytesToRead, offsetStart_eq hpos, hwrap, osDiskSectorSize]
  split
  · omega
  · omega

/-- A read that goes on has got a byte at least. -/
theorem bytesToRead_pos (hmore : total > bytesToRead pos total) : 0 < bytesToRead pos total := by
  unfold bytesToRead at hmore ⊢
  split at hmore
  · exact absurd hmore (Int.lt_irrefl _)
  · next hfull =>
    have hoffset : offsetStart pos < 512 := by
      unfold offsetStart
      exact Int.tmod_lt_of_pos pos (by decide)
    rw [if_neg hfull, osDiskSectorSize]
    omega

end Sector

/-! ## Seamless reads -/

namespace DiskStream

section Exact

variable {D} {bytes : Nat → UInt8} {s s' s'' : DiskStream σ}

theorem Exact.trans {m n : Nat} (hpos : 0 ≤ s.pos) (h : Exact bytes s m s')
    (h' : Exact bytes s' n s'') : Exact bytes s (m + n) s'' := by
  refine ⟨?_, ?_, fun k => ?_⟩
  · rw [h'.pos, h.pos]
    omega
  · rw [h'.out, h.out]
    omega
  · rw [h'.mem, h.mem, h.pos, h.out]
    by_cases hlow : s.out ≤ k ∧ k < s.out + m
    · rw [if_neg (by omega), if_pos hlow, if_pos (by omega)]
    · by_cases hhigh : s.out + m ≤ k ∧ k < s.out + m + n
      · rw [if_pos hhigh, if_pos (by omega)]
        congr 1
        omega
      · rw [if_neg hhigh, if_neg hlow, if_neg (by omega)]

/-- What is taken from a sector that was delivered. -/
theorem take_exact (total : Nat) {buf : Int → UInt8} (hpos : 0 ≤ s.pos)
    (hend : s.pos + total < 2 ^ 31)
    (hbuf : ∀ j : Nat, j < 512 → buf j = bytes (512 * (s.pos.toNat / 512) + j)) :
    Exact bytes s (bytesToRead s.pos total).toNat (s.take buf total) := by
  have hbytes := bytesToRead_eq hpos (Int.natCast_nonneg total) hend
  refine ⟨?_, rfl, fun k => ?_⟩
  · show i32 (s.pos + bytesToRead s.pos total) = _
    rw [i32_of_bounds (by omega) (by omega)]
    omega
  · show fillSlots _ _ _ _ k = _
    rw [fillSlots_apply]
    by_cases hk : s.out ≤ k ∧ k < s.out + (bytesToRead s.pos total).toNat
    · rw [if_pos hk, if_pos hk, offsetStart_eq hpos]
      have hj : s.pos % 512 + ((k - s.out : Nat) : Int) =
          ((s.pos.toNat % 512 + (k - s.out) : Nat) : Int) := by omega
      rw [hj, hbuf _ (by omega)]
      congr 1
      omega
    · rw [if_neg hk, if_neg hk]

theorem readSector_delivers (hD : D.Delivers bytes) (hpos : 0 ≤ s.pos) (hlt : s.pos < 2 ^ 31) :
    ∃ disk res buf, s.readSector D =
        ({ s with disk := disk, results := s.results ++ [res] }, res, buf) ∧ 0 ≤ res ∧
      ∀ j : Nat, j < 512 → buf j = bytes (512 * (s.pos.toNat / 512) + j) := by
  have hsector := sectorStart_eq hpos hlt
  obtain ⟨hres, hbuf⟩ := hD s.disk (s.pos.toNat / 512) (by omega)
  refine ⟨_, _, _, rfl, ?_, ?_⟩
  · rw [hsector]
    exact hres
  · rw [hsector]
    exact hbuf

/-- **A read of any length**: by induction on the calls, each of which takes one sector. -/
theorem readWithin_exact (hD : D.Delivers bytes) {n total : Nat} (hpos : 0 ≤ s.pos)
    (hend : s.pos + total < 2 ^ 31) (hn : total < n) :
    ∃ s', readWithin D n s total = some (s', 0) ∧ Exact bytes s total s' := by
  induction n generalizing s total with
  | zero => exact absurd hn (Nat.not_lt_zero total)
  | succ n ih =>
    obtain ⟨disk, res, buf, hread, hres, hbuf⟩ := readSector_delivers hD hpos (by omega)
    let s₁ : DiskStream σ := { s with disk := disk, results := s.results ++ [res] }
    have htake : Exact bytes s (bytesToRead s.pos total).toNat (s₁.take buf total) := by
      obtain ⟨h₁, h₂, h₃⟩ := take_exact (s := s₁) total hpos hend hbuf
      exact ⟨h₁, h₂, h₃⟩
    have hbytes := bytesToRead_eq hpos (Int.natCast_nonneg total) hend
    rw [readWithin, hread]
    simp only [if_neg (Int.not_lt.mpr hres)]
    by_cases hmore : (total : Int) > bytesToRead s.pos total
    · -- the rest, from the position where this sector ends
      have hgot := bytesToRead_pos hmore
      have hpos₁ : (s₁.take buf total).pos = s.pos + bytesToRead s.pos total := by
        rw [htake.pos]
        omega
      obtain ⟨rest, hrest⟩ : ∃ rest : Nat, (total : Int) - bytesToRead s.pos total = rest :=
        Int.eq_ofNat_of_zero_le (by omega)
      have hend' : (s₁.take buf total).pos + rest < 2 ^ 31 := by omega
      obtain ⟨s', hs', hexact⟩ := ih (by omega) hend' (by omega)
      refine ⟨s', ?_, ?_⟩
      · show (if (total : Int) > bytesToRead s.pos total then
          (readWithin D n (s₁.take buf total) (total - bytesToRead s.pos total)).map _ else _) = _
        rw [if_pos hmore, hrest, hs']
        rfl
      · have htotal : (bytesToRead s.pos total).toNat + rest = total := by omega
        exact htotal ▸ htake.trans hpos hexact
    · have hall : (bytesToRead s.pos total).toNat = total := by omega
      rw [hall] at htake
      exact ⟨s₁.take buf total, if_neg hmore, htake⟩

/-- Reads one after the other. -/
theorem dstreamReads_exact (hD : D.Delivers bytes) (ns : List Nat) (hpos : 0 ≤ s.pos)
    (hend : s.pos + ns.sum < 2 ^ 31) :
    ∃ s', s.dstreamReads D ns = some s' ∧ Exact bytes s ns.sum s' := by
  induction ns generalizing s with
  | nil =>
    refine ⟨s, rfl, ?_, rfl, fun k => ?_⟩
    · simp
    · rw [if_neg]
      rw [List.sum_nil]
      omega
  | cons n ns ih =>
    rw [List.sum_cons] at hend ⊢
    obtain ⟨s₁, hread, hexact⟩ := readWithin_exact hD (n := n + 1) hpos
      (by omega : s.pos + n < 2 ^ 31) (Nat.lt_succ_self n)
    have hpos₁ := hexact.pos
    obtain ⟨s', hreads, hexact'⟩ := ih (s := s₁) (by omega) (by omega)
    refine ⟨s', ?_, hexact.trans hpos hexact'⟩
    have hfirst : s.dstreamRead D n = some (s₁, 0) := by
      rw [dstreamRead, Int.toNat_natCast]
      exact hread
    rw [dstreamReads, hfirst]
    exact hreads

end Exact

/-- **`dstream_read` is seamless.** On a disk that delivers every sector, a read from any position
writes the bytes that follow on the disk, all of them and nothing else, and leaves the stream
behind them; and reads of any lengths that add up to the same write the same. -/
theorem dstreamRead_exact {bytes : Nat → UInt8} (hD : D.Delivers bytes) (s : DiskStream σ)
    {total : Int} (hpos : 0 ≤ s.pos) (htotal : 0 ≤ total) (hend : s.pos + total < 2 ^ 31) :
    ∃ s', s.dstreamRead D total = some (s', 0) ∧ Exact bytes s total.toNat s' ∧
      ∀ ns : List Nat, (ns.sum : Int) = total → ∃ s'', s.dstreamReads D ns = some s'' ∧
        s''.pos = s'.pos ∧ s''.out = s'.out ∧ s''.mem = s'.mem := by
  obtain ⟨n, rfl⟩ := Int.eq_ofNat_of_zero_le htotal
  obtain ⟨s', hread, hexact⟩ := readWithin_exact hD hpos hend (Nat.lt_succ_self n)
  refine ⟨s', ?_, hexact, fun ns hns => ?_⟩
  · rw [dstreamRead, Int.toNat_natCast]
    exact hread
  · have hsum : ns.sum = n := Int.ofNat.inj hns
    obtain ⟨s'', hreads, hexact'⟩ := dstreamReads_exact hD ns hpos (hsum ▸ hend)
    rw [hsum] at hexact'
    refine ⟨s'', hreads, ?_, ?_, funext fun k => ?_⟩
    · rw [hexact'.pos, hexact.pos]
    · rw [hexact'.out, hexact.out]
    · rw [hexact'.mem, hexact.mem]

end DiskStream

/-- The byte at an address is the address, and every sector can be read. -/
def countingDisk : BlockDevice Unit where
  readBlock _ lba := ((), 0, fun j => UInt8.ofNat (512 * lba + j.toNat))

/-- Thirty bytes across the end of the first sector. -/
theorem dstreamRead_exact_two_sectors :
    let s : DiskStream Unit := ⟨(), 500, fun _ => 0, 0, []⟩
    ∃ s', s.dstreamRead countingDisk 30 = some (s', 0) ∧
      DiskStream.Exact UInt8.ofNat s 30 s' ∧
      ∀ ns : List Nat, (ns.sum : Int) = 30 → ∃ s'', s.dstreamReads countingDisk ns = some s'' ∧
        s''.pos = s'.pos ∧ s''.out = s'.out ∧ s''.mem = s'.mem := by
  have hdelivers : countingDisk.Delivers UInt8.ofNat := fun _ _ _ => ⟨Int.le_refl 0, fun _ _ => rfl⟩
  exact DiskStream.dstreamRead_exact countingDisk hdelivers _ (by decide) (by decide) (by decide)

/-! ## Errors -/

/-- The sectors that a read goes through, one call after the other. -/
def sectors : Nat → Int → Int → List Nat
  | 0, _, _ => []
  | n + 1, pos, total =>
    sectorStart pos ::
      if total > bytesToRead pos total then
        sectors n (i32 (pos + bytesToRead pos total)) (total - bytesToRead pos total)
      else []

/-- What the disk answers to reads of the sectors. -/
def BlockDevice.answers : σ → List Nat → List Int
  | _, [] => []
  | d, lba :: lbas => (D.readBlock d lba).2.1 :: answers (D.readBlock d lba).1 lbas

/-- What the disk answers to reads of all sectors of a range. -/
def DiskStream.answers (s : DiskStream σ) (total : Int) : List Int :=
  D.answers s.disk (sectors (total.toNat + 1) s.pos total)

/-- The answers up to the first failure. -/
def untilFailure : List Int → List Int
  | [] => []
  | res :: rest => if res < 0 then [res] else res :: untilFailure rest

theorem failure_iff (l : List Int) : (∃ res ∈ untilFailure l, res < 0) ↔ ∃ res ∈ l, res < 0 := by
  induction l with
  | nil => rfl
  | cons res rest ih =>
    rw [untilFailure]
    by_cases hres : res < 0
    · rw [if_pos hres]
      simp [hres]
    · rw [if_neg hres]
      simpa [hres] using ih

namespace DiskStream

section Errors

variable {D} {s : DiskStream σ}

/-- **A read goes on up to the first failure**, and returns an error if this is the first of all. -/
theorem readWithin_eq {n : Nat} {total : Int} (hn : total.toNat < n) :
    ∃ s', readWithin D n s total =
        some (s', if (D.readBlock s.disk (sectorStart s.pos)).2.1 < 0 then -eio else 0) ∧
      s'.results = s.results ++ untilFailure (D.answers s.disk (sectors n s.pos total)) := by
  induction n generalizing s total with
  | zero => exact absurd hn (Nat.not_lt_zero _)
  | succ n ih =>
    rw [readWithin, readSector, sectors, BlockDevice.answers, untilFailure]
    rcases hread : D.readBlock s.disk (sectorStart s.pos) with ⟨disk, res, buf⟩
    by_cases hres : res < 0
    · simp only [if_pos hres]
      exact ⟨_, rfl, rfl⟩
    · simp only [if_neg hres]
      by_cases hmore : total > bytesToRead s.pos total
      · have hgot := bytesToRead_pos hmore
        let s₁ : DiskStream σ := { s with disk := disk, results := s.results ++ [res] }
        have hn' : (total - bytesToRead s.pos total).toNat < n := by omega
        obtain ⟨s', hs', hresults⟩ := ih (s := s₁.take buf total) hn'
        refine ⟨s', ?_, ?_⟩
        · show (if total > bytesToRead s.pos total then
            (readWithin D n (s₁.take buf total) (total - bytesToRead s.pos total)).map _ else _) = _
          rw [if_pos hmore, hs']
          rfl
        · rw [if_pos hmore, hresults]
          exact List.append_assoc _ [res] _
      · simp only [if_neg hmore]
        exact ⟨_, rfl, rfl⟩

/-- **A failed sector is reported iff it is the first one**: the read of the first sector fails,
or the reads of all sectors of the range succeed. For every position, length and disk. -/
theorem dstreamRead_honest_iff (D : BlockDevice σ) (s : DiskStream σ) (total : Int) :
    s.Honest D total ↔
      (∃ res ∈ (s.answers D total).head?, res < 0) ∨ ∀ res ∈ s.answers D total, 0 ≤ res := by
  have hfirst : (s.answers D total).head? =
      some (D.readBlock s.disk (sectorStart s.pos)).2.1 := rfl
  obtain ⟨s', hread, hresults⟩ := readWithin_eq (D := D) (s := s) (Nat.lt_succ_self total.toNat)
  have hfail := failure_iff (s.answers D total)
  by_cases hres : (D.readBlock s.disk (sectorStart s.pos)).2.1 < 0
  · rw [if_pos hres] at hread
    refine iff_of_true ⟨s', -eio, hread, _, hresults, fun h => ?_, fun _ => by decide⟩ (.inl ?_)
    · exact absurd h (by decide)
    · exact ⟨_, hfirst, hres⟩
  · rw [if_neg hres] at hread
    have hnot : ¬ ∃ res ∈ (s.answers D total).head?, res < 0 := by
      rintro ⟨res, hmem, hneg⟩
      rw [hfirst] at hmem
      cases hmem
      exact hres hneg
    rw [or_iff_right hnot]
    constructor
    · rintro ⟨s₁, ret, hread₁, results, hresults₁, -, hneg⟩ res hmem
      cases hread.symm.trans hread₁
      have heq : results = untilFailure (s.answers D total) :=
        List.append_cancel_left (hresults₁.symm.trans hresults)
      by_contra hlt
      have hret := hneg (heq ▸ hfail.mpr ⟨res, hmem, Int.not_le.mp hlt⟩)
      exact absurd hret (Int.lt_irrefl 0)
    · intro hall
      have hnone : ¬ ∃ res ∈ untilFailure (s.answers D total), res < 0 := by
        rw [hfail]
        rintro ⟨res, hmem, hneg⟩
        exact absurd (hall res hmem) (Int.not_le.mpr hneg)
      refine ⟨s', 0, hread, _, hresults, fun _ res hmem => ?_, fun h => absurd h hnone⟩
      by_contra hlt
      exact hnone ⟨res, hmem, Int.not_le.mp hlt⟩

end Errors

end DiskStream

/-- The second sector cannot be read. -/
def brokenDisk : BlockDevice Unit where
  readBlock _ lba := ((), if lba = 1 then -1 else 0, fun _ => 0)

/-- Thirty bytes across the end of the first sector: the second read fails, and the result is 0. -/
theorem dstreamRead_late_failure :
    let s : DiskStream Unit := ⟨(), 500, fun _ => 0, 0, []⟩
    (s.dstreamRead brokenDisk 30).map (fun r => (r.2, r.1.results)) = some (0, [0, -1]) ∧
      ¬ s.Honest brokenDisk 30 := by
  intro s
  have hrun : (s.dstreamRead brokenDisk 30).map (fun r => (r.2, r.1.results)) =
      some (0, [0, -1]) := by decide +kernel
  refine ⟨hrun, ?_⟩
  rintro ⟨s', ret, hread, results, hresults, hzero, -⟩
  rw [hread, Option.map_some, Option.some.injEq, Prod.mk.injEq] at hrun
  obtain ⟨rfl, hlist⟩ := hrun
  have hissued : results = [0, -1] := by
    rw [← hlist, hresults]
    rfl
  exact absurd (hzero rfl (-1) (by simp [hissued])) (by decide)

end UnagiOs
