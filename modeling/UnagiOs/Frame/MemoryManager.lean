import Mathlib.Algebra.GroupWithZero.Nat
import UnagiOs.Theory.Bitmap
import UnagiOs.Util.Error

/-!
# The frame bitmap

`BitmapMemoryManager` (`memory_manager.cpp`) keeps one bit per 4 KiB frame in an
array of 64-bit lines. An index outside the array is undefined behaviour in the
source; here it is a `Fault` that carries the index, and so is a search that does
not return.

- `getBit`, `setBit`: one frame. `setBits`: the loop of `MarkAllocated` and `Free`.
- `allocate`: the search for the lowest run of clear frames. `scan` is its inner
  loop, `allocateLoop` the outer one, with the number of rounds left.
- `bit` reads the map as a plain set of frames; every function is specified by
  what it does to `bit`.

A `FrameID` is its number. `size_t` sums do not wrap: `start_frame_id + i` is compared
with `range_end_` before it is used, and stays below it.
-/

namespace UnagiOs

/-- Minimum physical memory frame size, `4_KiB`. -/
def kBytesPerFrame : Nat := 4 * 1024

/-- Maximum number of bytes that the manager can handle, `128_GiB`. -/
def kMaxPhysicalMemoryBytes : Nat := 128 * 1024 * 1024 * 1024

def kFrameCount : Nat := kMaxPhysicalMemoryBytes / kBytesPerFrame

def kBitsPerMapLine : Nat := 8 * 8

abbrev MapLineType : Type := BitVec kBitsPerMapLine

/-- A frame that represents "no such frame". -/
def kNullFrame : Nat := 2 ^ 64 - 1

/-- What the source leaves undefined. -/
inductive Fault where
  /-- An access to the bit of a frame that `alloc_map_` does not have. -/
  | outOfMap (frame : Nat)
  /-- A search that is still going after its last round. -/
  | noReturn
  deriving DecidableEq, Repr

/-- `alloc_map_` has `kFrameCount / kBitsPerMapLine` lines. -/
structure BitmapMemoryManager where
  allocMap : Nat → MapLineType
  rangeBegin : Nat
  rangeEnd : Nat

namespace BitmapMemoryManager

/-- The constructor. -/
def new : BitmapMemoryManager := ⟨fun _ => 0, 0, kFrameCount⟩

def setMemoryRange (m : BitmapMemoryManager) (rangeBegin rangeEnd : Nat) :
    BitmapMemoryManager :=
  { m with rangeBegin, rangeEnd }

/-- The frame's bit as the map has it. -/
def bit (m : BitmapMemoryManager) (frame : Nat) : Bool := bitAt m.allocMap frame

/-! ## Single frames -/

def getBit (m : BitmapMemoryManager) (frame : Nat) : Except Fault Bool :=
  let lineIndex := frame / kBitsPerMapLine
  let bitIndex := frame % kBitsPerMapLine
  if lineIndex < kFrameCount / kBitsPerMapLine then
    .ok (m.allocMap lineIndex &&& BitVec.ofNat kBitsPerMapLine 1 <<< bitIndex !=
      BitVec.ofNat kBitsPerMapLine 0)
  else
    .error (.outOfMap frame)

def setBit (m : BitmapMemoryManager) (frame : Nat) (allocated : Bool) :
    Except Fault BitmapMemoryManager :=
  let lineIndex := frame / kBitsPerMapLine
  let bitIndex := frame % kBitsPerMapLine
  if lineIndex < kFrameCount / kBitsPerMapLine then
    let line := m.allocMap lineIndex
    let mask := BitVec.ofNat kBitsPerMapLine 1 <<< bitIndex
    let line := if allocated then line ||| mask else line &&& ~~~mask
    .ok { m with allocMap := setSlot m.allocMap lineIndex line }
  else
    .error (.outOfMap frame)

section Bit

variable {m m' : BitmapMemoryManager} {f : Nat} {b : Bool}

theorem line_lt_iff : f / kBitsPerMapLine < kFrameCount / kBitsPerMapLine ↔ f < kFrameCount := by
  simp only [kBitsPerMapLine, kFrameCount, kMaxPhysicalMemoryBytes, kBytesPerFrame]
  omega

theorem getBit_eq (hf : f < kFrameCount) : m.getBit f = .ok (m.bit f) := by
  have hbit : f % kBitsPerMapLine < kBitsPerMapLine := Nat.mod_lt _ (by decide)
  rw [getBit, if_pos (line_lt_iff.mpr hf), and_mask_ne_zero _ hbit]
  rfl

theorem getBit_fault (hf : kFrameCount ≤ f) : m.getBit f = .error (.outOfMap f) := by
  rw [getBit, if_neg]
  rw [line_lt_iff]
  omega

/-- `m'` is `m` with other bits. -/
structure Rewritten (m m' : BitmapMemoryManager) (p : Nat → Bool) : Prop where
  bit : ∀ f, m'.bit f = p f
  rangeBegin : m'.rangeBegin = m.rangeBegin
  rangeEnd : m'.rangeEnd = m.rangeEnd

theorem setBit_spec (hf : f < kFrameCount) :
    ∃ m', m.setBit f b = .ok m' ∧ Rewritten m m' fun g => if g = f then b else m.bit g := by
  rw [setBit, if_pos (line_lt_iff.mpr hf)]
  refine ⟨_, rfl, fun g => ?_, rfl, rfl⟩
  cases b
  · exact bitAt_and_not_mask (by decide)
  · exact bitAt_or_mask (by decide)

theorem setBit_fault (hf : kFrameCount ≤ f) : m.setBit f b = .error (.outOfMap f) := by
  rw [setBit, if_neg]
  rw [line_lt_iff]
  omega

end Bit

/-! ## Loops over consecutive frames -/

/-- `for (i = 0; i < n; ++i) SetBit(start + i, allocated);` -/
def setBits (m : BitmapMemoryManager) (start : Nat) (allocated : Bool) :
    Nat → Except Fault BitmapMemoryManager
  | 0 => .ok m
  | n + 1 => (setBits m start allocated n).bind fun m => m.setBit (start + n) allocated

def markAllocated (m : BitmapMemoryManager) (startFrame : Nat) (numFrames : Nat) :
    Except Fault BitmapMemoryManager :=
  m.setBits startFrame true numFrames

/-- `Free` answers `kSuccess` whatever it is given. -/
def free (m : BitmapMemoryManager) (startFrame : Nat) (numFrames : Nat) :
    Except Fault (BitmapMemoryManager × Error) :=
  (m.setBits startFrame false numFrames).map fun m => (m, .kSuccess)

/-- The `n` frames from `start` on have bits in the map. -/
def FramesExist (start : Nat) (n : Nat) : Prop := n = 0 ∨ start + n ≤ kFrameCount
  deriving Decidable

section Loop

variable {m m' : BitmapMemoryManager} {start : Nat} {b : Bool} {n : Nat}

theorem setBits_spec (h : FramesExist start n) :
    ∃ m', m.setBits start b n = .ok m' ∧ Rewritten m m' (fill m.bit start n b) := by
  induction n with
  | zero => exact ⟨m, rfl, fun f => by rw [fill_zero], rfl, rfl⟩
  | succ n ih =>
    have hle : start + (n + 1) ≤ kFrameCount := h.resolve_left (by omega)
    obtain ⟨m₁, heq₁, h₁⟩ := ih (.inr (by omega))
    obtain ⟨m₂, heq₂, h₂⟩ := setBit_spec (m := m₁) (b := b) (show start + n < kFrameCount by omega)
    refine ⟨m₂, ?_, fun f => ?_, h₂.rangeBegin.trans h₁.rangeBegin,
      h₂.rangeEnd.trans h₁.rangeEnd⟩
    · rw [setBits, heq₁]
      exact heq₂
    · rw [h₂.bit, fill_succ, h₁.bit]

/-- The loop of a range that the map does not have reaches an index past its end. -/
theorem setBits_fault (h : ¬ FramesExist start n) :
    ∃ f, m.setBits start b n = .error (.outOfMap f) ∧ kFrameCount ≤ f := by
  induction n with
  | zero => exact absurd (.inl rfl) h
  | succ n ih =>
    rw [setBits]
    by_cases hn : FramesExist start n
    · obtain ⟨m₁, heq₁, -⟩ := setBits_spec (m := m) (b := b) hn
      have hf : kFrameCount ≤ start + n := by
        simp only [FramesExist] at h
        omega
      exact ⟨start + n, by rw [heq₁]; exact setBit_fault hf, hf⟩
    · obtain ⟨f, heq, hf⟩ := ih hn
      exact ⟨f, by rw [heq]; rfl, hf⟩

end Loop

/-! ## The search -/

/-- How the inner loop of `Allocate` ends. -/
inductive Scan where
  /-- `i == num_frames` -/
  | found
  /-- `break` at an occupied frame -/
  | occupied (i : Nat)
  /-- `return {kNullFrame, kNoEnoughMemory}` -/
  | noEnoughMemory
  deriving DecidableEq, Repr

/-- The inner loop of `Allocate` from `i` on, with `k` rounds to `num_frames`. -/
def scan (m : BitmapMemoryManager) (start : Nat) (i : Nat) : Nat → Except Fault Scan
  | 0 => .ok .found
  | k + 1 =>
    if start + i ≥ m.rangeEnd then .ok .noEnoughMemory
    else
      (m.getBit (start + i)).bind fun occupied =>
        if occupied then .ok (.occupied i) else scan m start (i + 1) k

/-- The outer loop of `Allocate`. -/
def allocateLoop (m : BitmapMemoryManager) (numFrames : Nat) :
    Nat → Nat → Except Fault (BitmapMemoryManager × WithError Nat)
  | 0, _ => .error .noReturn
  | rounds + 1, start =>
    (m.scan start 0 numFrames).bind fun
      | .noEnoughMemory => .ok (m, ⟨kNullFrame, .kNoEnoughMemory⟩)
      | .found => (m.markAllocated start numFrames).map fun m => (m, ⟨start, .kSuccess⟩)
      | .occupied i => allocateLoop m numFrames rounds (start + (i + 1))

/-- Every round but the last one passes an occupied frame below `range_end_`. -/
def allocate (m : BitmapMemoryManager) (numFrames : Nat) :
    Except Fault (BitmapMemoryManager × WithError Nat) :=
  m.allocateLoop numFrames (m.rangeEnd + 1) m.rangeBegin

/-- A run of `n` clear frames in the range of the manager. -/
def ClearRun (m : BitmapMemoryManager) (n : Nat) (start : Nat) : Prop :=
  IsRun m.bit m.rangeBegin m.rangeEnd n start

section Search

variable {m : BitmapMemoryManager} {start : Nat} {n : Nat} {k i rounds : Nat}

/-- What each way out of the inner loop says about the window at `start`. -/
inductive ScanSpec (m : BitmapMemoryManager) (start : Nat) (n : Nat) : Scan → Prop
  | found (hend : n = 0 ∨ start + n ≤ m.rangeEnd)
      (hclear : ∀ f, start ≤ f → f < start + n → m.bit f = false) : ScanSpec m start n .found
  | occupied {i : Nat} (hi : i < n) (hend : start + i < m.rangeEnd)
      (hbit : m.bit (start + i) = true) : ScanSpec m start n (.occupied i)
  | noEnoughMemory (hend : m.rangeEnd < start + n) : ScanSpec m start n .noEnoughMemory

/-- The loop carries that the frames it has passed are clear. -/
theorem scan_spec (start : Nat) (hmap : m.rangeEnd ≤ kFrameCount) (hk : i + k = n)
    (hend : i = 0 ∨ start + i ≤ m.rangeEnd)
    (hclear : ∀ f, start ≤ f → f < start + i → m.bit f = false) :
    ∃ r, m.scan start i k = .ok r ∧ ScanSpec m start n r := by
  induction k generalizing i with
  | zero =>
    obtain rfl : i = n := hk
    exact ⟨_, rfl, .found hend hclear⟩
  | succ k ih =>
    rw [scan]
    split
    · exact ⟨_, rfl, .noEnoughMemory (by omega)⟩
    · rw [getBit_eq (by omega)]
      cases hb : m.bit (start + i) with
      | true => exact ⟨_, rfl, .occupied (by omega) (by omega) hb⟩
      | false =>
        refine ih (by omega) (.inr (by omega)) fun f hf hlt => ?_
        by_cases heq : f = start + i
        · rw [heq, hb]
        · exact hclear f hf (by omega)

/-- What `Allocate` answers: the lowest run, marked, or the error when there is none. -/
inductive AllocateSpec (m : BitmapMemoryManager) (n : Nat) :
    BitmapMemoryManager × WithError Nat → Prop
  | success {m' : BitmapMemoryManager} {start : Nat}
      (hleast : IsLeast {s | m.ClearRun n s} start)
      (hbits : Rewritten m m' (fill m.bit start n true)) :
      AllocateSpec m n (m', ⟨start, .kSuccess⟩)
  | failure (hnone : ¬ ∃ s, m.ClearRun n s) :
      AllocateSpec m n (m, ⟨kNullFrame, .kNoEnoughMemory⟩)

/-- The outer loop carries that no run starts below `start`. -/
theorem allocateLoop_spec (hn : 0 < n) (hmap : m.rangeEnd ≤ kFrameCount)
    (hrounds : m.rangeEnd < rounds + start) (hpos : 0 < rounds) (hbegin : m.rangeBegin ≤ start)
    (hlow : ∀ s, m.ClearRun n s → start ≤ s) :
    ∃ r, m.allocateLoop n rounds start = .ok r ∧ AllocateSpec m n r := by
  induction rounds generalizing start with
  | zero => omega
  | succ rounds ih =>
    obtain ⟨r, heq, hr⟩ := scan_spec start hmap (Nat.zero_add n) (.inl rfl)
      (fun f hf hlt => by omega)
    rw [allocateLoop, heq]
    cases hr with
    | found hend hclear =>
      have hle : start + n ≤ m.rangeEnd := hend.resolve_left (by omega)
      obtain ⟨m', heq', hm'⟩ := setBits_spec (m := m) (b := true)
        (show FramesExist start n from .inr (by omega))
      refine ⟨_, by rw [markAllocated, heq']; rfl, .success ⟨?_, hlow⟩ hm'⟩
      exact ⟨hbegin, hle, hclear⟩
    | noEnoughMemory hend => exact ⟨_, rfl, .failure (IsRun.not_past_end hlow hend)⟩
    | occupied hi hend hbit =>
      exact ih (by omega) (by omega) (by omega) (IsRun.skip hlow hi hbit)

theorem allocate_spec (hn : 0 < n) (hmap : m.rangeEnd ≤ kFrameCount) :
    ∃ r, m.allocate n = .ok r ∧ AllocateSpec m n r :=
  allocateLoop_spec hn hmap (by omega) (by omega) (Nat.le_refl _) fun _ hs => hs.lo_le

/-- A range that ends past the map: the inner loop stops at an occupied frame of
the map or runs into the first frame that the map does not have. -/
theorem scan_past_map (start : Nat) (hend : kFrameCount < m.rangeEnd) (hi : start + i ≤ kFrameCount)
    (hk : kFrameCount < start + i + k) :
    m.scan start i k = .error (.outOfMap kFrameCount) ∨
      ∃ j, m.scan start i k = .ok (.occupied j) ∧ start + j < kFrameCount := by
  induction k generalizing i with
  | zero => omega
  | succ k ih =>
    rw [scan, if_neg (by omega)]
    by_cases heq : start + i = kFrameCount
    · rw [heq, getBit_fault (Nat.le_refl _)]
      exact .inl rfl
    · have hlt : start + i < kFrameCount := by omega
      rw [getBit_eq hlt]
      cases hb : m.bit (start + i) with
      | true => exact .inr ⟨i, rfl, hlt⟩
      | false => exact ih (by omega) (by omega)

theorem allocateLoop_past_map (hend : kFrameCount < m.rangeEnd) (hstart : start ≤ kFrameCount)
    (hrounds : m.rangeEnd < rounds + start) :
    m.allocateLoop m.rangeEnd rounds start = .error (.outOfMap kFrameCount) := by
  induction rounds generalizing start with
  | zero => omega
  | succ rounds ih =>
    rw [allocateLoop]
    rcases scan_past_map start hend (k := m.rangeEnd) (i := 0) hstart (by omega) with
      heq | ⟨j, heq, hj⟩
    · rw [heq]
      rfl
    · rw [heq]
      exact ih (by omega) (by omega)

/-- A request for more frames than there are reads every frame of the range. -/
theorem allocate_past_map (hbegin : m.rangeBegin ≤ kFrameCount)
    (hend : kFrameCount < m.rangeEnd) :
    m.allocate m.rangeEnd = .error (.outOfMap kFrameCount) :=
  allocateLoop_past_map hend hbegin (by omega)

/-- No frame is read for an empty request. -/
theorem allocate_zero : m.allocate 0 = .ok (m, ⟨m.rangeBegin, .kSuccess⟩) := rfl

end Search

end BitmapMemoryManager

end UnagiOs
