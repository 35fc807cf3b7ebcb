import Mathlib.Data.List.Chain
import UnagiOs.Frame.BitmapRun

/-!
# From the UEFI memory map to the frame bitmap

The loop of `KernelMainNewStack` (`main.cpp`) reads the memory map that the
loader hands over and marks in the frame bitmap what is not usable memory.
`available_end` advances over available descriptors only: a gap is marked when
the descriptor behind it is read, together with the unavailable memory that the
same loop has marked already.

- `frames_available`: for a sorted map below 128 GiB the clear frames are exactly
  the available ones, and later calls of `Allocate` hand out these and no others.
- `indices_in_map_iff`: when all the indices that the loop and later searches use
  belong to the bitmap. The loop guards the start of a descriptor only.

Descriptors are the list of those that the loop would visit; sums and products of
their fields are `uint64_t` and wrap.
-/

namespace UnagiOs

open BitmapMemoryManager List

/-- `enum class MemoryType`; a `uint32_t` of a descriptor may be no enumerator. -/
inductive MemoryType where
  | kEfiReservedMemoryType
  | kEfiLoaderCode
  | kEfiLoaderData
  | kEfiBootServicesCode
  | kEfiBootServicesData
  | kEfiRuntimeServicesCode
  | kEfiRuntimeServicesData
  | kEfiConventionalMemory
  | kEfiUnusableMemory
  | kEfiACPIReclaimMemory
  | kEfiACPIMemoryNVS
  | kEfiMemoryMappedIO
  | kEfiMemoryMappedIOPortSpace
  | kEfiPalCode
  | kEfiPersistentMemory
  | kEfiMaxMemoryType
  | other (code : Nat)
  deriving DecidableEq, Repr

def isAvailable : MemoryType → Bool
  | .kEfiBootServicesCode | .kEfiBootServicesData | .kEfiConventionalMemory => true
  | _ => false

def kUEFIPageSize : Nat := 4096

/-- The fields of `MemoryDescriptor` that the loop reads. -/
structure MemoryDescriptor where
  type : MemoryType
  physicalStart : Nat
  numberOfPages : Nat
  deriving DecidableEq, Repr

namespace MemoryDescriptor

/-- `number_of_pages * kUEFIPageSize` -/
def pageBytes (d : MemoryDescriptor) : Nat := d.numberOfPages * kUEFIPageSize % 2 ^ 64

/-- `physical_end` -/
def physicalEnd (d : MemoryDescriptor) : Nat := (d.physicalStart + d.pageBytes) % 2 ^ 64

/-- The address behind the last page, where no sum wraps. -/
def limit (d : MemoryDescriptor) : Nat := d.physicalStart + d.numberOfPages * kUEFIPageSize

/-- The frame lies in the pages of the descriptor. -/
def Has (d : MemoryDescriptor) (f : Nat) : Prop :=
  d.physicalStart ≤ f * kBytesPerFrame ∧ (f + 1) * kBytesPerFrame ≤ d.limit
  deriving Decidable

/-- What the loop marks for an unavailable descriptor has bits in the map. -/
def Fits (d : MemoryDescriptor) : Prop :=
  FramesExist (d.physicalStart / kBytesPerFrame) (d.pageBytes / kBytesPerFrame)
  deriving Decidable

end MemoryDescriptor

namespace KernelMainNewStack

/-- Mark the non-existing physical addresses before a descriptor. -/
def markGap (m : BitmapMemoryManager) (availableEnd physicalStart : Nat) :
    Except Fault BitmapMemoryManager :=
  if availableEnd < physicalStart then
    m.markAllocated (availableEnd / kBytesPerFrame)
      ((physicalStart - availableEnd) / kBytesPerFrame)
  else
    .ok m

/-- One round of the loop, behind its guard. -/
def visit (m : BitmapMemoryManager) (availableEnd : Nat) (desc : MemoryDescriptor) :
    Except Fault (BitmapMemoryManager × Nat) :=
  (markGap m availableEnd desc.physicalStart).bind fun m =>
    if isAvailable desc.type then
      .ok (m, desc.physicalEnd)
    else
      (m.markAllocated (desc.physicalStart / kBytesPerFrame)
        (desc.pageBytes / kBytesPerFrame)).map fun m => (m, availableEnd)

def loop (m : BitmapMemoryManager) (availableEnd : Nat) :
    List MemoryDescriptor → Except Fault (BitmapMemoryManager × Nat)
  | [] => .ok (m, availableEnd)
  | desc :: rest =>
    -- Limit the loop in 128GB
    if desc.physicalStart > 128 * 1024 * 1024 * 1024 then
      .ok (m, availableEnd)
    else
      (visit m availableEnd desc).bind fun (m, availableEnd) => loop m availableEnd rest

/-- The manager after the loop and `SetMemoryRange`. -/
def memoryManager (memoryMap : List MemoryDescriptor) : Except Fault BitmapMemoryManager :=
  (loop .new 0 memoryMap).map fun (m, availableEnd) =>
    m.setMemoryRange 1 (availableEnd / kBytesPerFrame)

section Visit

variable {m : BitmapMemoryManager} {availableEnd : Nat} {d : MemoryDescriptor}

/-- A gap ends at the start of a descriptor, so it never leaves the map. -/
theorem markGap_spec (availableEnd : Nat) {physicalStart : Nat}
    (h : physicalStart ≤ kMaxPhysicalMemoryBytes) :
    ∃ m', markGap m availableEnd physicalStart = .ok m' ∧
      Rewritten m m' (fill m.bit (availableEnd / kBytesPerFrame)
        ((physicalStart - availableEnd) / kBytesPerFrame) true) := by
  unfold markGap
  split
  · refine setBits_spec (.inr ?_)
    simp only [kFrameCount, kMaxPhysicalMemoryBytes, kBytesPerFrame] at h ⊢
    omega
  · have hzero : physicalStart - availableEnd = 0 := by omega
    rw [hzero, Nat.zero_div]
    exact ⟨m, rfl, fun f => by rw [fill_zero], rfl, rfl⟩

/-- `available_end` behind a round. -/
def nextEnd (availableEnd : Nat) (d : MemoryDescriptor) : Nat :=
  if isAvailable d.type then d.physicalEnd else availableEnd

/-- The bits behind a round: the gap, and an unavailable descriptor itself. -/
def nextBits (m : BitmapMemoryManager) (availableEnd : Nat) (d : MemoryDescriptor) : Nat → Bool :=
  let gap := fill m.bit (availableEnd / kBytesPerFrame)
    ((d.physicalStart - availableEnd) / kBytesPerFrame) true
  if isAvailable d.type then gap
  else fill gap (d.physicalStart / kBytesPerFrame) (d.pageBytes / kBytesPerFrame) true

/-- A round marks the gap in front of the descriptor, and the descriptor if it is not available. -/
theorem visit_spec (availableEnd : Nat) (h : d.physicalStart ≤ kMaxPhysicalMemoryBytes)
    (hfits : isAvailable d.type = false → d.Fits) :
    ∃ m', visit m availableEnd d = .ok (m', nextEnd availableEnd d) ∧
      Rewritten m m' (nextBits m availableEnd d) := by
  obtain ⟨m₁, heq₁, h₁⟩ := markGap_spec (m := m) availableEnd h
  rw [visit, heq₁, nextEnd]
  unfold nextBits
  cases hav : isAvailable d.type with
  | true => exact ⟨m₁, rfl, h₁⟩
  | false =>
    obtain ⟨m₂, heq₂, h₂⟩ := setBits_spec (m := m₁) (b := true) (hfits hav)
    refine ⟨m₂, ?_, ?_, h₂.rangeBegin.trans h₁.rangeBegin, h₂.rangeEnd.trans h₁.rangeEnd⟩
    · simp only [Except.bind, markAllocated, heq₂]
      rfl
    · have hbits : m₁.bit = _ := funext h₁.bit
      rw [← hbits]
      exact h₂.bit

theorem visit_fault (availableEnd : Nat) (h : d.physicalStart ≤ kMaxPhysicalMemoryBytes)
    (hav : isAvailable d.type = false) (hfits : ¬ d.Fits) :
    ∃ f, visit m availableEnd d = .error (.outOfMap f) ∧ kFrameCount ≤ f := by
  obtain ⟨m₁, heq₁, -⟩ := markGap_spec (m := m) availableEnd h
  obtain ⟨f, heq₂, hf⟩ := setBits_fault (m := m₁) (b := true) hfits
  refine ⟨f, ?_, hf⟩
  rw [visit, heq₁]
  simp only [Except.bind, hav, markAllocated, heq₂]
  rfl

end Visit

/-! ## Sorted maps below 128 GiB -/

/-- A map of 4 KiB pages below 128 GiB, each descriptor starting at or after the
end of the one before it. -/
structure Tidy (ds : List MemoryDescriptor) : Prop where
  aligned : ∀ d ∈ ds, kUEFIPageSize ∣ d.physicalStart
  below : ∀ d ∈ ds, d.limit ≤ kMaxPhysicalMemoryBytes
  sorted : ds.IsChain fun d e => d.limit ≤ e.physicalStart

/-- The frame lies in an available descriptor. -/
def Available (ds : List MemoryDescriptor) (f : Nat) : Prop :=
  ∃ d ∈ ds, isAvailable d.type = true ∧ d.Has f

/-- What the loop has done when it is behind the descriptors `done`, of which the
last one ends at `pos`. -/
structure MapInv (done : List MemoryDescriptor) (pos : Nat) (m : BitmapMemoryManager)
    (availableEnd : Nat) : Prop where
  aligned : kBytesPerFrame ∣ availableEnd
  le_pos : availableEnd ≤ pos
  pos_le : pos ≤ kMaxPhysicalMemoryBytes
  below : ∀ f, f * kBytesPerFrame < availableEnd → (m.bit f = false ↔ Available done f)
  above : ∀ f, availableEnd ≤ f * kBytesPerFrame → ¬ Available done f
  clear : ∀ f, pos ≤ f * kBytesPerFrame → m.bit f = false

section Tidy

variable {m : BitmapMemoryManager} {availableEnd pos : Nat} {d : MemoryDescriptor}
  {ds done : List MemoryDescriptor}

theorem available_concat {f : Nat} :
    Available (done ++ [d]) f ↔ Available done f ∨ isAvailable d.type = true ∧ d.Has f := by
  simp [Available, or_and_right, exists_or]

theorem pageBytes_of_below (h : d.limit ≤ kMaxPhysicalMemoryBytes) :
    d.pageBytes = d.numberOfPages * kUEFIPageSize := by
  refine Nat.mod_eq_of_lt ?_
  simp only [MemoryDescriptor.limit, kMaxPhysicalMemoryBytes] at h
  omega

theorem physicalEnd_of_below (h : d.limit ≤ kMaxPhysicalMemoryBytes) :
    d.physicalEnd = d.limit := by
  rw [MemoryDescriptor.physicalEnd, pageBytes_of_below h]
  refine Nat.mod_eq_of_lt ?_
  simp only [MemoryDescriptor.limit, kMaxPhysicalMemoryBytes] at h
  omega

theorem fits_of_below (h : d.limit ≤ kMaxPhysicalMemoryBytes) : d.Fits := by
  refine .inr ?_
  rw [pageBytes_of_below h]
  simp only [MemoryDescriptor.limit, kMaxPhysicalMemoryBytes, kBytesPerFrame, kFrameCount,
    kUEFIPageSize] at h ⊢
  omega

/-- On whole frames the two ways of marking are plain intervals. -/
theorem nextBits_iff (hend : kBytesPerFrame ∣ availableEnd)
    (haligned : kUEFIPageSize ∣ d.physicalStart) (hbelow : d.limit ≤ kMaxPhysicalMemoryBytes)
    {f : Nat} :
    nextBits m availableEnd d f = true ↔
      (availableEnd ≤ f * kBytesPerFrame ∧ f * kBytesPerFrame < d.physicalStart) ∨
        (isAvailable d.type = false ∧ d.Has f) ∨ m.bit f = true := by
  obtain ⟨e, he⟩ := hend
  obtain ⟨s, hs⟩ := haligned
  have hgap : availableEnd / kBytesPerFrame ≤ f ∧
      f < availableEnd / kBytesPerFrame + (d.physicalStart - availableEnd) / kBytesPerFrame ↔
      availableEnd ≤ f * kBytesPerFrame ∧ f * kBytesPerFrame < d.physicalStart := by
    simp only [kBytesPerFrame, kUEFIPageSize] at he hs ⊢
    omega
  have hself : d.physicalStart / kBytesPerFrame ≤ f ∧
      f < d.physicalStart / kBytesPerFrame + d.pageBytes / kBytesPerFrame ↔ d.Has f := by
    rw [pageBytes_of_below hbelow]
    simp only [MemoryDescriptor.Has, MemoryDescriptor.limit, kBytesPerFrame, kUEFIPageSize] at hs ⊢
    omega
  unfold nextBits
  cases isAvailable d.type with
  | true => simp only [if_true, fill_true_iff, hgap, Bool.true_eq_false, false_and, false_or]
  | false =>
    simp only [Bool.false_eq_true, if_false, fill_true_iff, hgap, hself, true_and]
    exact or_left_comm

/-- The step of the sweep. A frame below the new `available_end` lay below the old
one, or in the gap, which is marked now, or in the descriptor, where nothing has
been marked yet. -/
theorem MapInv.visit (hinv : MapInv done pos m availableEnd)
    (haligned : kUEFIPageSize ∣ d.physicalStart) (hbelow : d.limit ≤ kMaxPhysicalMemoryBytes)
    (hpos : pos ≤ d.physicalStart) :
    ∃ m', visit m availableEnd d = .ok (m', nextEnd availableEnd d) ∧
      MapInv (done ++ [d]) d.limit m' (nextEnd availableEnd d) := by
  have hstart : d.physicalStart ≤ d.limit := Nat.le_add_right _ _
  have hle := hinv.le_pos
  obtain ⟨m', heq, hm'⟩ := visit_spec (m := m) availableEnd
    (hstart.trans hbelow) fun _ => fits_of_below hbelow
  have hbit : ∀ f, m'.bit f = true ↔ _ := fun f =>
    (hm'.bit f).symm ▸ nextBits_iff (m := m) hinv.aligned haligned hbelow
  have hbefore : ∀ f, f * kBytesPerFrame < d.physicalStart → ¬ d.Has f :=
    fun f hf h => Nat.not_le.mpr hf h.1
  have hbehind : ∀ f, d.limit ≤ f * kBytesPerFrame → ¬ d.Has f := by
    intro f hf h
    have := h.2
    simp only [kBytesPerFrame] at hf this
    omega
  have hclear : ∀ f, d.limit ≤ f * kBytesPerFrame → m'.bit f = false := by
    intro f hf
    rw [← Bool.not_eq_true, hbit]
    simp [hbehind f hf, Nat.not_lt.mpr (hstart.trans hf),
      hinv.clear f (hpos.trans (hstart.trans hf))]
  refine ⟨m', heq, ?_⟩
  cases hav : isAvailable d.type with
  | true =>
    have hlimit : kUEFIPageSize ∣ d.limit := Nat.dvd_add haligned (Nat.dvd_mul_left _ _)
    rw [nextEnd, if_pos hav, physicalEnd_of_below hbelow]
    refine ⟨hlimit, Nat.le_refl _, hbelow, fun f hf => ?_, fun f hf => ?_, hclear⟩
    · rw [available_concat, ← Bool.not_eq_true, hbit]
      rcases Nat.lt_or_ge (f * kBytesPerFrame) availableEnd with hlow | hlow
      · rw [← hinv.below f hlow]
        simp [hav, hbefore f (by omega), Nat.not_le.mpr hlow]
      · have hold := hinv.above f hlow
        -- the gap before the descriptor is marked allocated
        rcases Nat.lt_or_ge (f * kBytesPerFrame) d.physicalStart with hgap | hin
        · simp [hold, hbefore f hgap, hlow, hgap]
        · have hhas : d.Has f := by
            refine ⟨hin, ?_⟩
            obtain ⟨l, hl⟩ := hlimit
            simp only [kBytesPerFrame, kUEFIPageSize] at hl hf ⊢
            omega
          simp [hav, hhas, Nat.not_lt.mpr hin, hinv.clear f (hpos.trans hin)]
    · rw [available_concat]
      rintro (hold | ⟨-, hhas⟩)
      · exact hinv.above f (by omega) hold
      · exact hbehind f hf hhas
  | false =>
    rw [nextEnd, if_neg (by rw [hav]; exact Bool.false_ne_true)]
    refine ⟨hinv.aligned, by omega, hbelow, fun f hf => ?_, fun f hf => ?_, hclear⟩
    · rw [available_concat, ← Bool.not_eq_true, hbit, ← hinv.below f hf]
      simp [hav, hbefore f (by omega), Nat.not_le.mpr hf]
    · rw [available_concat]
      simp [hav, hinv.above f hf]

/-- The sweep over a sorted map. -/
theorem MapInv.loop (hinv : MapInv done pos m availableEnd)
    (haligned : ∀ d ∈ ds, kUEFIPageSize ∣ d.physicalStart)
    (hbelow : ∀ d ∈ ds, d.limit ≤ kMaxPhysicalMemoryBytes)
    (hsorted : ds.IsChain fun d e => d.limit ≤ e.physicalStart)
    (hpos : ∀ d ∈ ds.head?, pos ≤ d.physicalStart) :
    ∃ m' end' pos', loop m availableEnd ds = .ok (m', end') ∧ MapInv (done ++ ds) pos' m' end' := by
  induction ds generalizing done pos m availableEnd with
  | nil => exact ⟨m, availableEnd, pos, rfl, by rwa [append_nil]⟩
  | cons d ds ih =>
    have hd := hbelow d mem_cons_self
    obtain ⟨m₁, heq, hinv₁⟩ := hinv.visit (haligned d mem_cons_self) hd (hpos d rfl)
    rw [isChain_cons] at hsorted
    obtain ⟨m', end', pos', heq', hinv'⟩ := ih hinv₁
      (fun e he => haligned e (mem_cons_of_mem d he))
      (fun e he => hbelow e (mem_cons_of_mem d he)) hsorted.2 hsorted.1
    refine ⟨m', end', pos', ?_, by rwa [append_assoc] at hinv'⟩
    have hguard : ¬ d.physicalStart > 128 * 1024 * 1024 * 1024 :=
      Nat.not_lt.mpr ((Nat.le_add_right _ _).trans hd)
    rw [KernelMainNewStack.loop, if_neg hguard, heq]
    exact heq'

theorem MapInv.start : MapInv [] 0 .new 0 where
  aligned := Nat.dvd_zero _
  le_pos := Nat.le_refl _
  pos_le := Nat.zero_le _
  below f hf := absurd hf (Nat.not_lt_zero _)
  above f _ h := by simp [Available] at h
  clear f _ := by simp [BitmapMemoryManager.new, BitmapMemoryManager.bit, bitAt]

/-- Below the end of the range, a frame is clear exactly if it is available. -/
theorem memoryManager_spec (h : Tidy ds) :
    ∃ m, memoryManager ds = .ok m ∧ m.rangeBegin = 1 ∧ m.rangeEnd ≤ kFrameCount ∧
      (∀ f < m.rangeEnd, (m.bit f = false ↔ Available ds f)) ∧
      ∀ f, Available ds f → f < m.rangeEnd := by
  obtain ⟨m, end', pos', heq, hinv⟩ := MapInv.start.loop h.aligned h.below h.sorted
    fun _ _ => Nat.zero_le _
  refine ⟨m.setMemoryRange 1 (end' / kBytesPerFrame), by rw [memoryManager, heq]; rfl, rfl,
    Nat.div_le_div_right (hinv.le_pos.trans hinv.pos_le), fun f hf => ?_, fun f hf => ?_⟩
  · refine hinv.below f ?_
    simp only [setMemoryRange, kBytesPerFrame] at hf ⊢
    omega
  · obtain ⟨e, he⟩ := hinv.aligned
    have hlt := Nat.lt_of_not_le fun hle => hinv.above f hle hf
    show f < end' / kBytesPerFrame
    simp only [kBytesPerFrame] at he hlt ⊢
    omega

end Tidy

/-- The callers hold available frames only, and an available frame that nobody
holds can be handed out, the first frame of memory apart. -/
structure HandsOut (ds : List MemoryDescriptor) (r : Frames) : Prop where
  available : ∀ f, r.InLive f → Available ds f
  notWithheld : ∀ f, 1 ≤ f → f < r.manager.rangeEnd → Available ds f → ¬ r.InLive f →
    r.manager.ClearRun 1 f

theorem HandsOut.of_inv {ds : List MemoryDescriptor} {m : BitmapMemoryManager} {r : Frames}
    (hbegin : m.rangeBegin = 1) (hbits : ∀ f < m.rangeEnd, (m.bit f = false ↔ Available ds f))
    (hr : HandOutInv m r) : HandsOut ds r where
  available f hf := by
    obtain ⟨⟨-, hlt⟩, hclear⟩ := hr.fresh f hf
    exact (hbits f hlt).mp hclear
  notWithheld f hone hlt hav hlive := by
    refine ⟨by rw [hr.rangeBegin, hbegin]; exact hone, hlt, fun g hg hg' => ?_⟩
    obtain rfl : g = f := by omega
    have hclear := (hbits g (hr.rangeEnd ▸ hlt)).mpr hav
    rw [← Bool.not_eq_true, hr.bits, hr.marked, hclear]
    simp [hlive]

/-- After the loop a frame below the end of the range is clear exactly if it lies
in an available descriptor. `Allocate` then hands out available frames only, and
from frame 1 on it withholds none of them. -/
theorem frames_available {ds : List MemoryDescriptor} (h : Tidy ds) :
    ∃ m, memoryManager ds = .ok m ∧
      (∀ f < m.rangeEnd, (m.bit f = false ↔ Available ds f)) ∧
      (∀ f, Available ds f → f < m.rangeEnd) ∧
      ∀ ops, frameMachine.AllSteps (fun r op => r.Legal op ∧ op.NoMark) (Frames.start m) ops →
        frameMachine.Always (HandsOut ds) (fun r op _ => r.Answers op) (Frames.start m) ops := by
  obtain ⟨m, heq, hbegin, hmap, hbits, hend⟩ := memoryManager_spec h
  refine ⟨m, heq, hbits, hend, fun ops hops => ?_⟩
  exact Machine.always_of_inv (fun r hr => HandsOut.of_inv hbegin hbits hr)
    (fun r op hr hok => hr.step hmap hok.1 hok.2) (HandOutInv.start m) hops

/-- Two available regions with a hole and a reserved region between them. -/
def holeAndReserved : List MemoryDescriptor :=
  [⟨.kEfiConventionalMemory, 0x1000, 2⟩, ⟨.kEfiReservedMemoryType, 0x4000, 1⟩,
    ⟨.kEfiBootServicesData, 0x5000, 3⟩]

theorem frames_available_holeAndReserved :
    ∃ m, memoryManager holeAndReserved = .ok m ∧
      (∀ f < m.rangeEnd, (m.bit f = false ↔ Available holeAndReserved f)) ∧
      (∀ f, Available holeAndReserved f → f < m.rangeEnd) ∧
      ∀ ops, frameMachine.AllSteps (fun r op => r.Legal op ∧ op.NoMark) (Frames.start m) ops →
        frameMachine.Always (HandsOut holeAndReserved) (fun r op _ => r.Answers op)
          (Frames.start m) ops :=
  frames_available ⟨by decide, by decide, by decide⟩

/-- The first frame of memory is available and below the end of the range, and no
request is granted it: the range begins at frame 1. -/
theorem first_frame_withheld :
    let ds := [⟨.kEfiConventionalMemory, 0, 1⟩]
    Tidy ds ∧ Available ds 0 ∧ ∃ m, memoryManager ds = .ok m ∧ 0 < m.rangeEnd ∧
      (m.allocate 1).map Prod.snd = .ok ⟨kNullFrame, .kNoEnoughMemory⟩ := by
  refine ⟨⟨by decide, by decide, by decide⟩, ⟨_, mem_singleton_self _, rfl, by decide⟩,
    _, rfl, by decide, rfl⟩

/-! ## Indices -/

/-- No access leaves the bitmap. -/
def InMap {α : Type} (x : Except Fault α) : Prop := ∀ f, x ≠ .error (.outOfMap f)

/-- Every index that the loop passes to `SetBit`, and every index that an
`Allocate` in a later history uses, belongs to the bitmap. -/
def IndicesInMap (ds : List MemoryDescriptor) : Prop :=
  InMap (memoryManager ds) ∧ ∀ m, memoryManager ds = .ok m →
    ∀ ops r, frameMachine.AllSteps Frames.Legal (Frames.start m) ops →
      frameMachine.run (Frames.start m) ops = some r → ∀ n, InMap (r.manager.allocate n)

/-- The descriptors that pass the guard of the loop. -/
def visited (ds : List MemoryDescriptor) : List MemoryDescriptor :=
  ds.takeWhile fun d => d.physicalStart ≤ 128 * 1024 * 1024 * 1024

/-- The last available descriptor that passes the guard. -/
def lastAvailable (ds : List MemoryDescriptor) : Option MemoryDescriptor :=
  ((visited ds).filter fun d => isAvailable d.type).getLast?

section Indices

variable {m : BitmapMemoryManager} {availableEnd : Nat} {d : MemoryDescriptor}
  {ds : List MemoryDescriptor}

theorem visited_cons (h : ¬ d.physicalStart > 128 * 1024 * 1024 * 1024) :
    visited (d :: ds) = d :: visited ds := by
  simp [visited, Nat.not_lt.mp h]

/-- `available_end` behind the loop. -/
def finalEnd (availableEnd : Nat) (ds : List MemoryDescriptor) : Nat :=
  ((lastAvailable ds).map MemoryDescriptor.physicalEnd).getD availableEnd

theorem finalEnd_cons (h : ¬ d.physicalStart > 128 * 1024 * 1024 * 1024) :
    finalEnd availableEnd (d :: ds) = finalEnd (nextEnd availableEnd d) ds := by
  unfold finalEnd lastAvailable nextEnd
  rw [visited_cons h, filter_cons]
  split
  · rw [getLast?_cons]
    cases ((visited ds).filter fun d => isAvailable d.type).getLast? <;> rfl
  · rfl

theorem finalEnd_stop (h : d.physicalStart > 128 * 1024 * 1024 * 1024) :
    finalEnd availableEnd (d :: ds) = availableEnd := by
  have hnil : visited (d :: ds) = [] := by simp [visited, h]
  simp [finalEnd, lastAvailable, hnil]

theorem loop_ok (m : BitmapMemoryManager) (availableEnd : Nat)
    (hfits : ∀ d ∈ visited ds, isAvailable d.type = false → d.Fits) :
    ∃ m', loop m availableEnd ds = .ok (m', finalEnd availableEnd ds) := by
  induction ds generalizing m availableEnd with
  | nil => exact ⟨m, rfl⟩
  | cons d ds ih =>
    rw [loop]
    by_cases hguard : d.physicalStart > 128 * 1024 * 1024 * 1024
    · rw [if_pos hguard, finalEnd_stop hguard]
      exact ⟨m, rfl⟩
    · rw [if_neg hguard, finalEnd_cons hguard]
      rw [visited_cons hguard] at hfits
      obtain ⟨m₁, heq, -⟩ := visit_spec (m := m) availableEnd
        (Nat.not_lt.mp hguard) (hfits d mem_cons_self)
      rw [heq]
      exact ih _ _ fun e he => hfits e (mem_cons_of_mem d he)

/-- A descriptor that does not fit into the bitmap is marked outside of it. -/
theorem loop_fault (m : BitmapMemoryManager) (availableEnd : Nat)
    (hfits : ∃ d ∈ visited ds, isAvailable d.type = false ∧ ¬ d.Fits) :
    ∃ f, loop m availableEnd ds = .error (.outOfMap f) := by
  induction ds generalizing m availableEnd with
  | nil => simp [visited] at hfits
  | cons d ds ih =>
    have hguard : ¬ d.physicalStart > 128 * 1024 * 1024 * 1024 := by
      intro h
      simp [visited, h] at hfits
    rw [loop, if_neg hguard]
    rw [visited_cons hguard, exists_mem_cons_iff] at hfits
    have hstart := Nat.not_lt.mp hguard
    by_cases hd : isAvailable d.type = false → d.Fits
    · obtain ⟨m₁, heq, -⟩ := visit_spec (m := m) availableEnd hstart hd
      rw [heq]
      exact ih _ _ (hfits.resolve_left fun h => h.2 (hd h.1))
    · obtain ⟨hav, hno⟩ := Classical.not_imp.mp hd
      obtain ⟨f, heq, -⟩ := visit_fault (m := m) availableEnd hstart hav hno
      exact ⟨f, by rw [heq]; rfl⟩

/-- A search in a range that the map has. -/
theorem inMap_allocate (hmap : m.rangeEnd ≤ kFrameCount) (n : Nat) : InMap (m.allocate n) := by
  intro f hf
  cases n with
  | zero => rw [allocate_zero] at hf; cases hf
  | succ n =>
    obtain ⟨ans, heq, -⟩ := allocate_spec (m := m) n.succ_pos hmap
    cases heq.symm.trans hf

/-- The range of the manager never changes, so later searches stay in the map. -/
theorem inMap_later (hmap : m.rangeEnd ≤ kFrameCount) {ops : List FrameOp} {r : Frames}
    (hlegal : frameMachine.AllSteps Frames.Legal (Frames.start m) ops)
    (hrun : frameMachine.run (Frames.start m) ops = some r) (n : Nat) :
    InMap (r.manager.allocate n) := by
  have hstep : ∀ r op, FramesInv m r → r.Legal op →
      ∃ r', frameMachine.step r op = some r' ∧ FramesInv m r' := by
    intro r op hr hop
    obtain ⟨r', heq, -, hr'⟩ := hr.step hmap hop
    exact ⟨r', heq, hr'⟩
  obtain ⟨r', heq, hr'⟩ := Machine.run_of_inv hstep (FramesInv.start m) hlegal
  cases heq.symm.trans hrun
  exact inMap_allocate (hr'.rangeEnd ▸ hmap) n

end Indices

/-- Every index is in the map exactly if, among the descriptors that pass the
guard of the loop, the unavailable ones end within the map and so does the last
available one. -/
theorem indices_in_map_iff (ds : List MemoryDescriptor) :
    IndicesInMap ds ↔
      (∀ d ∈ visited ds, isAvailable d.type = false → d.Fits) ∧
        ∀ d ∈ lastAvailable ds, d.physicalEnd / kBytesPerFrame ≤ kFrameCount := by
  by_cases hfits : ∀ d ∈ visited ds, isAvailable d.type = false → d.Fits
  · obtain ⟨m, heq⟩ := loop_ok .new 0 hfits
    have hman : memoryManager ds = .ok (m.setMemoryRange 1 (finalEnd 0 ds / kBytesPerFrame)) := by
      rw [memoryManager, heq]
      rfl
    have hlast : (∀ d ∈ lastAvailable ds, d.physicalEnd / kBytesPerFrame ≤ kFrameCount) ↔
        finalEnd 0 ds / kBytesPerFrame ≤ kFrameCount := by
      unfold finalEnd
      cases lastAvailable ds <;> simp
    rw [hlast, IndicesInMap, hman]
    refine ⟨fun h => ⟨hfits, ?_⟩, fun h => ⟨fun f hf => (by cases hf), ?_⟩⟩
    · -- the first request for more frames than there are reads past the map
      by_contra hlt
      exact h.2 _ rfl [] _ trivial rfl _ kFrameCount
        (allocate_past_map (show 1 ≤ kFrameCount by decide) (Nat.lt_of_not_le hlt))
    · intro m' hm' ops r hlegal hrun
      cases hm'
      exact inMap_later h.2 hlegal hrun
  · refine ⟨fun h => absurd h.1 ?_, fun h => absurd h.1 hfits⟩
    obtain ⟨f, heq⟩ := loop_fault .new 0 (by simpa using hfits)
    intro hin
    exact hin f (by rw [memoryManager, heq]; rfl)

theorem indices_in_map_holeAndReserved : IndicesInMap holeAndReserved :=
  (indices_in_map_iff holeAndReserved).mpr ⟨by decide, by decide⟩

/-- All available memory, then a reserved page that starts at 128 GiB: it passes
the guard, and the loop sets the bit behind the last one of the map. -/
theorem reserved_page_at_limit :
    let ds := [⟨.kEfiConventionalMemory, 0, 0x2000000⟩,
      ⟨.kEfiReservedMemoryType, 0x2000000000, 1⟩]
    ds.IsChain (fun d e => d.limit ≤ e.physicalStart) ∧ ¬ IndicesInMap ds ∧
      (memoryManager ds).map (fun _ => ()) = .error (.outOfMap kFrameCount) := by
  refine ⟨by decide, fun h => h.1 kFrameCount rfl, rfl⟩

end KernelMainNewStack

end UnagiOs
