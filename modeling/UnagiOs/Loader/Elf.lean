import UnagiOs.Theory.ByteMemory
import UnagiOs.Theory.Rounding

/-!
# Loading the kernel (UnagiLoaderPkg/efimain.c)

The loader reads the ELF image of the kernel into memory and goes over its program headers twice:
`CalcLoadAddressRange` for the range of addresses to allocate pages for, and `CopyLoadSegments` to
copy each segment from the image to its address and to clear what the file does not have. The
headers are read from memory in each round, so that the copies could change them; they do not,
because the segments lie apart from the image.

Memory is a function from addresses to bytes. `CopyMem` and `SetMem` of the firmware do what they
are called, and each leaves a note of the range it wrote to.

- `copyLoadSegments_eq`: the loop loads the segments that the headers describe, one by one.
- `copyLoadSegments_spec`: every segment is in memory afterwards, and nothing was written outside of
  the allocated pages iff the segments do not span the whole address space.
-/

namespace UnagiOs.Loader

open List

/-! ## Headers -/

section Headers

variable (m : Nat → UInt8) (h : Nat)

/-- `h->e_phoff` -/
def ePhoff : Nat := leLoad m (h + 0x20) 8

/-- `h->e_phnum` -/
def ePhnum : Nat := leLoad m (h + 0x38) 2

/-- `(ELF64_PGN_HEADER *)((UINT64)h + h->e_phoff)` -/
def pgnHeaders : Nat := (h + ePhoff m h) % 2 ^ 64

end Headers

/-- `ELFFLAGS_PGN_PT_LOAD` -/
def ptLoad : Nat := 1

/-- `sizeof(ELF64_PGN_HEADER)` -/
def sizeofPgnHeader : Nat := 56

/-- `p_type` of the header at an address. -/
def pType (m : Nat → UInt8) (ph : Nat) : Nat := leLoad m ph 4

/-- The fields of a program header that the loader uses. -/
structure Segment where
  offset : Nat
  vaddr : Nat
  filesz : Nat
  memsz : Nat
  deriving DecidableEq, Repr

/-- `p_offset`, `p_vaddr`, `p_filesz` and `p_memsz` of the header at an address. -/
def segmentAt (m : Nat → UInt8) (ph : Nat) : Segment :=
  ⟨leLoad m (ph + 8) 8, leLoad m (ph + 16) 8, leLoad m (ph + 32) 8, leLoad m (ph + 40) 8⟩

/-! ## The pages -/

/-- A round of `CalcLoadAddressRange`. -/
def calcStep (m : Nat → UInt8) (ph : Nat) (range : Nat × Nat) (i : Nat) : Nat × Nat :=
  if pType m (ph + sizeofPgnHeader * i) ≠ ptLoad then range
  else
    let s := segmentAt m (ph + sizeofPgnHeader * i)
    (min range.1 s.vaddr, max range.2 ((s.vaddr + s.memsz) % 2 ^ 64))

/-- `CalcLoadAddressRange`: `*first` and `*last`. -/
def calcLoadAddressRange (m : Nat → UInt8) (h : Nat) : Nat × Nat :=
  (List.range (ePhnum m h)).foldl (calcStep m (pgnHeaders m h)) (2 ^ 64 - 1, 0)

/-- Pages of 4 KiB. -/
structure Pages where
  start : Nat
  num : Nat
  deriving DecidableEq, Repr

/-- The pages have the byte at an address. -/
def Pages.Has (p : Pages) (a : Nat) : Prop := p.start ≤ a ∧ a < p.start + p.num * 0x1000

/-- `(end - start + 0xfff) / 0x1000` -/
def numPages (start last : Nat) : Nat :=
  ((last + (2 ^ 64 - start)) % 2 ^ 64 + 0xfff) % 2 ^ 64 / 0x1000

/-- What `UefiMain` asks `AllocatePages` for. -/
def kernelPages (m : Nat → UInt8) (h : Nat) : Pages :=
  let range := calcLoadAddressRange m h
  let start := range.1 >>> 12 <<< 12
  { start := start, num := numPages start range.2 }

/-! ## Copying -/

/-- The memory, and the ranges that were written to, by address and length. -/
structure Copying where
  mem : Nat → UInt8
  writes : List (Nat × Nat)

namespace Copying

/-- `gBS->CopyMem` -/
def copyMem (c : Copying) (dst src len : Nat) : Copying :=
  { mem := fillSlots c.mem dst (fun j => c.mem (src + j)) len, writes := c.writes ++ [(dst, len)] }

/-- `gBS->SetMem` -/
def setMem (c : Copying) (dst len : Nat) (value : UInt8) : Copying :=
  { mem := fillSlots c.mem dst (fun _ => value) len, writes := c.writes ++ [(dst, len)] }

/-- The byte at an address was written. -/
def Wrote (c : Copying) (a : Nat) : Prop := ∃ w ∈ c.writes, w.1 ≤ a ∧ a < w.1 + w.2

end Copying

/-- A round of `CopyLoadSegments`, with the header at `ph`. -/
def copySegment (h : Nat) (c : Copying) (ph : Nat) : Copying :=
  if pType c.mem ph ≠ ptLoad then c
  else
    let s := segmentAt c.mem ph
    let c := c.copyMem s.vaddr ((h + s.offset) % 2 ^ 64) s.filesz
    let s := segmentAt c.mem ph
    c.setMem ((s.vaddr + s.filesz) % 2 ^ 64) ((s.memsz + (2 ^ 64 - s.filesz)) % 2 ^ 64) 0

/-- The loop of `CopyLoadSegments` from round `i` on. A number of 16 bits bounds it, so that
`2 ^ 16` rounds are all there are. -/
def copyLoop (h ph : Nat) : Nat → Nat → Copying → Copying
  | 0, _, c => c
  | n + 1, i, c =>
    if i < ePhnum c.mem h then copyLoop h ph n (i + 1) (copySegment h c (ph + sizeofPgnHeader * i))
    else c

/-- `CopyLoadSegments` -/
def copyLoadSegments (m : Nat → UInt8) (h : Nat) : Copying :=
  copyLoop h (pgnHeaders m h) (2 ^ 16) 0 ⟨m, []⟩

/-! ## Images -/

/-- The segments that a few headers ask to load. -/
def segmentsOf (m : Nat → UInt8) (ph : Nat) (is : List Nat) : List Segment :=
  (is.filter fun i => pType m (ph + sizeofPgnHeader * i) = ptLoad).map fun i =>
    segmentAt m (ph + sizeofPgnHeader * i)

/-- The segments to load. -/
def loadSegments (m : Nat → UInt8) (h : Nat) : List Segment :=
  segmentsOf m (pgnHeaders m h) (List.range (ePhnum m h))

namespace Segment

/-- The byte at an address belongs to the segment in memory. -/
def InMem (s : Segment) (a : Nat) : Prop := s.vaddr ≤ a ∧ a < s.vaddr + s.memsz

/-- A segment of an image of `size` bytes at `h`, to be loaded elsewhere. -/
structure Ok (s : Segment) (h size : Nat) : Prop where
  filesz_le : s.filesz ≤ s.memsz
  end_lt : s.vaddr + s.memsz < 2 ^ 64
  in_file : s.offset + s.filesz ≤ size
  apart : ∀ a, s.InMem a → ¬ (h ≤ a ∧ a < h + size)

/-- The segment is in memory: its bytes of the file, and zeros. -/
structure Loaded (s : Segment) (m : Nat → UInt8) (h : Nat) (mem : Nat → UInt8) : Prop where
  file : ∀ j < s.filesz, mem (s.vaddr + j) = m (h + s.offset + j)
  zero : ∀ j, s.filesz ≤ j → j < s.memsz → mem (s.vaddr + j) = 0

/-- Copy the part in the file and clear the rest. -/
def load (h : Nat) (c : Copying) (s : Segment) : Copying :=
  (c.copyMem s.vaddr (h + s.offset) s.filesz).setMem (s.vaddr + s.filesz) (s.memsz - s.filesz) 0

end Segment

/-- An ELF64 image of `size` bytes at `h` with segments to load. -/
structure ElfImage (m : Nat → UInt8) (h size : Nat) : Prop where
  end_le : h + size ≤ 2 ^ 64
  header_in : 0x40 ≤ size
  table_in : ePhoff m h + sizeofPgnHeader * ePhnum m h ≤ size
  loads : loadSegments m h ≠ []
  segment : ∀ s ∈ loadSegments m h, s.Ok h size
  apart : (loadSegments m h).Pairwise fun s s' => ∀ a, ¬ (s.InMem a ∧ s'.InMem a)

/-! ## One segment -/

section Load

variable {m : Nat → UInt8} {h size : Nat} {c : Copying} {s : Segment}

/-- The image is as it was read. -/
def Intact (m : Nat → UInt8) (h size : Nat) (mem : Nat → UInt8) : Prop :=
  ∀ a, h ≤ a → a < h + size → mem a = m a

/-- Loading a segment changes its own range only. -/
theorem load_off (hle : s.filesz ≤ s.memsz) {a : Nat} (ha : ¬ s.InMem a) :
    (s.load h c).mem a = c.mem a := by
  rw [Segment.InMem] at ha
  show fillSlots (fillSlots c.mem s.vaddr (fun j => c.mem (h + s.offset + j)) s.filesz)
    (s.vaddr + s.filesz) (fun _ => 0) (s.memsz - s.filesz) a = c.mem a
  rw [fillSlots_apply, if_neg (by omega), fillSlots_apply, if_neg (by omega)]

/-- The copy stays in the range of the segment. -/
theorem Intact.copyMem (hintact : Intact m h size c.mem) (hs : s.Ok h size) (src : Nat) :
    Intact m h size (c.copyMem s.vaddr src s.filesz).mem := by
  intro a hlo hhi
  have hle := hs.filesz_le
  have hapart := mt (hs.apart a) (not_not_intro ⟨hlo, hhi⟩)
  rw [Segment.InMem] at hapart
  show fillSlots c.mem s.vaddr (fun j => c.mem (src + j)) s.filesz a = m a
  rw [fillSlots_apply, if_neg (by omega)]
  exact hintact a hlo hhi

/-- The address in the image does not wrap around, unless there is nothing to copy. -/
theorem Segment.Ok.copyMem_eq (hs : s.Ok h size) (hend : h + size ≤ 2 ^ 64) :
    c.copyMem s.vaddr ((h + s.offset) % 2 ^ 64) s.filesz =
      c.copyMem s.vaddr (h + s.offset) s.filesz := by
  have hin := hs.in_file
  by_cases hzero : s.filesz = 0
  · rw [hzero]
    rfl
  · rw [Nat.mod_eq_of_lt (by omega)]

theorem Intact.load (hintact : Intact m h size c.mem) (hs : s.Ok h size) :
    Intact m h size (s.load h c).mem := by
  intro a hlo hhi
  rw [load_off hs.filesz_le fun ha => hs.apart a ha ⟨hlo, hhi⟩]
  exact hintact a hlo hhi

theorem Intact.loaded (hintact : Intact m h size c.mem) (hs : s.Ok h size) :
    s.Loaded m h (s.load h c).mem := by
  have hin := hs.in_file
  have hle := hs.filesz_le
  constructor
  · intro j hj
    show fillSlots (fillSlots c.mem s.vaddr (fun j => c.mem (h + s.offset + j)) s.filesz)
      (s.vaddr + s.filesz) (fun _ => 0) (s.memsz - s.filesz) (s.vaddr + j) = m (h + s.offset + j)
    rw [fillSlots_apply, if_neg (by omega), fillSlots_apply, if_pos (by omega),
      Nat.add_sub_cancel_left]
    exact hintact _ (by omega) (by omega)
  · intro j hlo hhi
    show fillSlots (fillSlots c.mem s.vaddr (fun j => c.mem (h + s.offset + j)) s.filesz)
      (s.vaddr + s.filesz) (fun _ => 0) (s.memsz - s.filesz) (s.vaddr + j) = 0
    rw [fillSlots_apply, if_pos (by omega)]

/-- A loaded segment stays when what is written lies apart from it. -/
theorem Segment.Loaded.congr {mem mem' : Nat → UInt8} (hs : s.Loaded m h mem)
    (hle : s.filesz ≤ s.memsz) (hsame : ∀ a, s.InMem a → mem' a = mem a) :
    s.Loaded m h mem' := by
  constructor
  · intro j hj
    rw [hsame _ ⟨by omega, by omega⟩, hs.file j hj]
  · intro j hlo hhi
    rw [hsame _ ⟨by omega, by omega⟩, hs.zero j hlo hhi]

/-- **Any segments**, apart from each other and from the image. -/
theorem foldl_load {ss : List Segment} (hss : ∀ s ∈ ss, s.Ok h size)
    (hapart : ss.Pairwise fun s s' => ∀ a, ¬ (s.InMem a ∧ s'.InMem a))
    (hintact : Intact m h size c.mem) :
    (∀ s ∈ ss, s.Loaded m h (ss.foldl (Segment.load h) c).mem) ∧
      (∀ a, (∀ s ∈ ss, ¬ s.InMem a) → (ss.foldl (Segment.load h) c).mem a = c.mem a) ∧
      (ss.foldl (Segment.load h) c).writes = c.writes ++ ss.flatMap fun s =>
        [(s.vaddr, s.filesz), (s.vaddr + s.filesz, s.memsz - s.filesz)] := by
  induction ss generalizing c with
  | nil => exact ⟨fun s hs => absurd hs not_mem_nil, fun _ _ => rfl, (append_nil _).symm⟩
  | cons s ss ih =>
    obtain ⟨hs, hss⟩ := forall_mem_cons.mp hss
    obtain ⟨hfirst, hapart⟩ := pairwise_cons.mp hapart
    obtain ⟨hloaded, hoff, hwrites⟩ := ih hss hapart (hintact.load hs)
    rw [foldl_cons]
    refine ⟨forall_mem_cons.mpr ⟨?_, hloaded⟩, fun a ha => ?_, ?_⟩
    · refine (hintact.loaded hs).congr hs.filesz_le fun a ha => hoff a fun s' hs' ha' => ?_
      exact hfirst s' hs' a ⟨ha, ha'⟩
    · obtain ⟨has, ha⟩ := forall_mem_cons.mp ha
      rw [hoff a ha, load_off hs.filesz_le has]
    · rw [hwrites, flatMap_cons, ← append_assoc]
      show c.writes ++ [_] ++ [_] ++ _ = _
      simp only [append_assoc, cons_append, nil_append]

end Load

/-! ## The loop -/

section Loop

variable {m mem : Nat → UInt8} {h size i : Nat} {c : Copying}

theorem Intact.leLoad_eq (hintact : Intact m h size mem) {off n : Nat} (hoff : off + n ≤ size) :
    leLoad mem (h + off) n = leLoad m (h + off) n :=
  leLoad_congr fun j hj => hintact _ (by omega) (by omega)

theorem ElfImage.ePhnum_pos (himg : ElfImage m h size) : 0 < ePhnum m h := by
  refine Nat.pos_of_ne_zero fun hzero => himg.loads ?_
  rw [loadSegments, hzero]
  rfl

theorem ElfImage.pgnHeaders_eq (himg : ElfImage m h size) : pgnHeaders m h = h + ePhoff m h := by
  have hpos := himg.ePhnum_pos
  have htable := himg.table_in
  have hend := himg.end_le
  rw [sizeofPgnHeader] at htable
  exact Nat.mod_eq_of_lt (by omega)

/-- The headers read the same as long as the image is intact. -/
theorem ElfImage.header_eq (himg : ElfImage m h size) (hintact : Intact m h size mem)
    (hi : i < ePhnum m h) :
    pType mem (pgnHeaders m h + sizeofPgnHeader * i) =
        pType m (pgnHeaders m h + sizeofPgnHeader * i) ∧
      segmentAt mem (pgnHeaders m h + sizeofPgnHeader * i) =
        segmentAt m (pgnHeaders m h + sizeofPgnHeader * i) := by
  have htable := himg.table_in
  have hmul : sizeofPgnHeader * (i + 1) ≤ sizeofPgnHeader * ePhnum m h :=
    Nat.mul_le_mul_left _ hi
  have hfield : ∀ off n, off + n ≤ sizeofPgnHeader →
      leLoad mem (h + ePhoff m h + sizeofPgnHeader * i + off) n =
        leLoad m (h + ePhoff m h + sizeofPgnHeader * i + off) n := by
    intro off n hoff
    have hsize : ePhoff m h + sizeofPgnHeader * i + off + n ≤ size := by
      rw [Nat.mul_succ] at hmul
      omega
    simpa only [Nat.add_assoc] using hintact.leLoad_eq hsize
  have htype := hfield 0 4 (by decide)
  rw [Nat.add_zero] at htype
  rw [himg.pgnHeaders_eq, pType, pType, segmentAt, segmentAt, htype, hfield 8 8 (by decide),
    hfield 16 8 (by decide), hfield 32 8 (by decide), hfield 40 8 (by decide)]
  exact ⟨rfl, rfl⟩

theorem ElfImage.ePhnum_eq (himg : ElfImage m h size) (hintact : Intact m h size mem) :
    ePhnum mem h = ePhnum m h := by
  have hheader := himg.header_in
  exact hintact.leLoad_eq (by omega)

theorem mem_loadSegments {s : Segment} : s ∈ loadSegments m h ↔ ∃ i < ePhnum m h,
    pType m (pgnHeaders m h + sizeofPgnHeader * i) = ptLoad ∧
      segmentAt m (pgnHeaders m h + sizeofPgnHeader * i) = s := by
  simp [loadSegments, segmentsOf, and_assoc]

theorem segmentsOf_cons (m : Nat → UInt8) (ph i : Nat) (is : List Nat) :
    segmentsOf m ph (i :: is) =
      (if pType m (ph + sizeofPgnHeader * i) = ptLoad then
        [segmentAt m (ph + sizeofPgnHeader * i)] else []) ++ segmentsOf m ph is := by
  rw [segmentsOf, segmentsOf, filter_cons]
  by_cases hload : pType m (ph + sizeofPgnHeader * i) = ptLoad
  · rw [if_pos (decide_eq_true hload), if_pos hload]
    rfl
  · rw [if_neg (by simpa using hload), if_neg hload]
    rfl

/-- **One round** loads the segment of its header, if the header asks for it. -/
theorem ElfImage.copySegment_eq (himg : ElfImage m h size) (hintact : Intact m h size c.mem)
    (hi : i < ePhnum m h) :
    copySegment h c (pgnHeaders m h + sizeofPgnHeader * i) =
      if pType m (pgnHeaders m h + sizeofPgnHeader * i) = ptLoad then
        (segmentAt m (pgnHeaders m h + sizeofPgnHeader * i)).load h c
      else c := by
  obtain ⟨htype, hsegment⟩ := himg.header_eq hintact hi
  rw [copySegment, htype, hsegment]
  by_cases hload : pType m (pgnHeaders m h + sizeofPgnHeader * i) = ptLoad
  · rw [if_neg (not_not_intro hload), if_pos hload]
    have hs : (segmentAt m (pgnHeaders m h + sizeofPgnHeader * i)).Ok h size :=
      himg.segment _ (mem_loadSegments.mpr ⟨i, hi, hload, rfl⟩)
    generalize hsdef : segmentAt m (pgnHeaders m h + sizeofPgnHeader * i) = s at hs hsegment ⊢
    -- the copy does not reach the image, so the header is read again as it was
    have hagain : segmentAt (c.copyMem s.vaddr (h + s.offset) s.filesz).mem
        (pgnHeaders m h + sizeofPgnHeader * i) = s := by
      rw [← hsdef]
      exact (himg.header_eq (hsdef ▸ hintact.copyMem hs _) hi).2
    have hle := hs.filesz_le
    have hlt := hs.end_lt
    have hremain : (s.memsz + (2 ^ 64 - s.filesz)) % 2 ^ 64 = s.memsz - s.filesz := by
      omega
    simp only [hs.copyMem_eq himg.end_le, hagain, hremain]
    rw [Nat.mod_eq_of_lt (by omega : s.vaddr + s.filesz < 2 ^ 64), Segment.load]
  · rw [if_pos hload, if_neg hload]

/-- **The rest of the loop** loads the segments of the headers that are left. -/
theorem ElfImage.copyLoop_eq (himg : ElfImage m h size) (hintact : Intact m h size c.mem)
    {k n : Nat} (hk : i + k = ePhnum m h) (hn : k ≤ n) :
    copyLoop h (pgnHeaders m h) n i c =
      (segmentsOf m (pgnHeaders m h) (List.range' i k)).foldl (Segment.load h) c := by
  induction k generalizing i n c with
  | zero =>
    cases n with
    | zero => rfl
    | succ n =>
      rw [copyLoop, himg.ePhnum_eq hintact, if_neg (by omega)]
      rfl
  | succ k ih =>
    obtain ⟨n, rfl⟩ : ∃ n', n = n' + 1 := ⟨n - 1, by omega⟩
    have hi : i < ePhnum m h := by omega
    rw [copyLoop, himg.ePhnum_eq hintact, if_pos hi, himg.copySegment_eq hintact hi,
      range'_succ, segmentsOf_cons, foldl_append]
    by_cases hload : pType m (pgnHeaders m h + sizeofPgnHeader * i) = ptLoad
    · rw [if_pos hload, if_pos hload]
      refine ih (hintact.load ?_) (by omega) (by omega)
      exact himg.segment _ (mem_loadSegments.mpr ⟨i, hi, hload, rfl⟩)
    · rw [if_neg hload, if_neg hload]
      exact ih hintact (by omega) (by omega)

theorem ePhnum_lt (m : Nat → UInt8) (h : Nat) : ePhnum m h < 2 ^ 16 := leLoad_lt m _ 2

/-- **The loop** loads the segments one by one. -/
theorem ElfImage.copyLoadSegments_eq (himg : ElfImage m h size) :
    copyLoadSegments m h = (loadSegments m h).foldl (Segment.load h) ⟨m, []⟩ := by
  rw [copyLoadSegments, loadSegments, range_eq_range']
  exact himg.copyLoop_eq (fun _ _ _ => rfl) (Nat.zero_add _) (Nat.le_of_lt (ePhnum_lt m h))

end Loop

/-! ## The range -/

section Range

variable {m : Nat → UInt8} {h size : Nat}

/-- The range grows by a segment. -/
def rangeStep (range : Nat × Nat) (s : Segment) : Nat × Nat :=
  (min range.1 s.vaddr, max range.2 ((s.vaddr + s.memsz) % 2 ^ 64))

theorem foldl_calcStep (m : Nat → UInt8) (ph : Nat) (is : List Nat) (range : Nat × Nat) :
    is.foldl (calcStep m ph) range = (segmentsOf m ph is).foldl rangeStep range := by
  induction is generalizing range with
  | nil => rfl
  | cons i is ih =>
    rw [foldl_cons, ih, segmentsOf_cons, foldl_append, calcStep]
    by_cases hload : pType m (ph + sizeofPgnHeader * i) = ptLoad
    · rw [if_neg (not_not_intro hload), if_pos hload]
      rfl
    · rw [if_pos hload, if_neg hload]
      rfl

/-- The least range around a range and a few segments: its ends bound them from outside, and are
ends of one of them each. -/
theorem foldl_rangeStep {ss : List Segment} (hss : ∀ s ∈ ss, s.vaddr + s.memsz < 2 ^ 64)
    (range : Nat × Nat) :
    (∀ x, x ≤ (ss.foldl rangeStep range).1 ↔ x ≤ range.1 ∧ ∀ s ∈ ss, x ≤ s.vaddr) ∧
      ∀ x, (ss.foldl rangeStep range).2 ≤ x ↔ range.2 ≤ x ∧ ∀ s ∈ ss, s.vaddr + s.memsz ≤ x := by
  induction ss generalizing range with
  | nil => exact ⟨fun x => by simp, fun x => by simp⟩
  | cons s ss ih =>
    obtain ⟨hs, hss⟩ := forall_mem_cons.mp hss
    obtain ⟨hfirst, hlast⟩ := ih hss (rangeStep range s)
    have hmod : (s.vaddr + s.memsz) % 2 ^ 64 = s.vaddr + s.memsz := Nat.mod_eq_of_lt hs
    constructor
    · intro x
      rw [foldl_cons, hfirst, forall_mem_cons, ← and_assoc, rangeStep, Nat.le_min]
    · intro x
      rw [foldl_cons, hlast, forall_mem_cons, ← and_assoc, rangeStep, hmod, Nat.max_le]

/-- `CalcLoadAddressRange` gives the least range around all segments. -/
theorem ElfImage.range_spec (himg : ElfImage m h size) :
    (∀ x, x ≤ (calcLoadAddressRange m h).1 ↔
        x ≤ 2 ^ 64 - 1 ∧ ∀ s ∈ loadSegments m h, x ≤ s.vaddr) ∧
      ∀ x, (calcLoadAddressRange m h).2 ≤ x ↔
        0 ≤ x ∧ ∀ s ∈ loadSegments m h, s.vaddr + s.memsz ≤ x := by
  rw [calcLoadAddressRange, foldl_calcStep]
  exact foldl_rangeStep (fun s hs => (himg.segment s hs).end_lt) _

/-- Pages up to `last`. -/
theorem le_numPages {start last : Nat} (hle : start ≤ last) (hlt : last < 2 ^ 64)
    (hfits : last - start ≤ 2 ^ 64 - 0x1000) : last ≤ start + numPages start last * 0x1000 := by
  have hspan : (last + (2 ^ 64 - start)) % 2 ^ 64 = last - start := by
    omega
  have hup : last - start ≤ roundUp (last - start) 0x1000 := le_roundUp (last - start) (by decide)
  rw [roundUp] at hup
  rw [numPages, hspan]
  omega

/-- Their number overflows, and there are none. -/
theorem numPages_eq_zero {start last : Nat} (hlt : last < 2 ^ 64)
    (hover : ¬ last - start ≤ 2 ^ 64 - 0x1000) : numPages start last = 0 := by
  have hspan : (last + (2 ^ 64 - start)) % 2 ^ 64 = last - start := by
    omega
  rw [numPages, hspan]
  omega

theorem kernelPages_start (m : Nat → UInt8) (h : Nat) :
    (kernelPages m h).start = 0x1000 * ((calcLoadAddressRange m h).1 / 0x1000) := by
  show (calcLoadAddressRange m h).1 >>> 12 <<< 12 = _
  rw [Nat.shiftRight_eq_div_pow, Nat.shiftLeft_eq, Nat.mul_comm]

/-- The segments lie between the two ends. -/
theorem ElfImage.range_bounds (himg : ElfImage m h size) :
    (calcLoadAddressRange m h).2 < 2 ^ 64 ∧
      ∀ s ∈ loadSegments m h, (calcLoadAddressRange m h).1 ≤ s.vaddr ∧
        s.vaddr + s.memsz ≤ (calcLoadAddressRange m h).2 := by
  obtain ⟨hfirst, hlast⟩ := himg.range_spec
  refine ⟨Nat.lt_of_le_pred (by decide) ((hlast _).mpr ⟨Nat.zero_le _, fun s hs => ?_⟩),
    fun s hs => ⟨((hfirst _).mp (Nat.le_refl _)).2 s hs, ((hlast _).mp (Nat.le_refl _)).2 s hs⟩⟩
  exact Nat.le_pred_of_lt (himg.segment s hs).end_lt

/-- A segment begins where the range does. -/
theorem ElfImage.exists_first (himg : ElfImage m h size) :
    ∃ s ∈ loadSegments m h, s.vaddr = (calcLoadAddressRange m h).1 := by
  by_contra hnone
  have habove : ∀ s ∈ loadSegments m h, (calcLoadAddressRange m h).1 + 1 ≤ s.vaddr := by
    intro s hs
    have hne : s.vaddr ≠ (calcLoadAddressRange m h).1 := fun heq => hnone ⟨s, hs, heq⟩
    have hle := (himg.range_bounds.2 s hs).1
    omega
  obtain ⟨s, hs⟩ := exists_mem_of_ne_nil _ himg.loads
  have hend := (himg.segment s hs).end_lt
  have hs' := habove s hs
  have hself := (himg.range_spec.1 _).mpr ⟨by omega, habove⟩
  omega

/-- How far the range reaches from the first page, by the segments. -/
theorem ElfImage.span_le_iff (himg : ElfImage m h size) (n : Nat) :
    (calcLoadAddressRange m h).2 - (kernelPages m h).start ≤ n ↔
      ∀ s ∈ loadSegments m h, ∀ s' ∈ loadSegments m h,
        s.vaddr + s.memsz - 0x1000 * (s'.vaddr / 0x1000) ≤ n := by
  rw [kernelPages_start]
  constructor
  · intro hspan s hs s' hs'
    have hlast := (himg.range_bounds.2 s hs).2
    have hfirst := (himg.range_bounds.2 s' hs').1
    omega
  · intro hall
    obtain ⟨s', hs', hfirst⟩ := himg.exists_first
    have hlast : (calcLoadAddressRange m h).2 ≤
        n + 0x1000 * ((calcLoadAddressRange m h).1 / 0x1000) :=
      (himg.range_spec.2 _).mpr ⟨Nat.zero_le _, fun s hs => by
        have hs := hall s hs s' hs'
        rw [hfirst] at hs
        omega⟩
    omega

end Range

/-- What loading the segments writes to. -/
theorem ElfImage.wrote_iff {m : Nat → UInt8} {h size : Nat} (himg : ElfImage m h size) (a : Nat) :
    (copyLoadSegments m h).Wrote a ↔ ∃ s ∈ loadSegments m h, s.InMem a := by
  have hintact : Intact m h size (Copying.mk m []).mem := fun _ _ _ => rfl
  obtain ⟨-, -, hwrites⟩ := foldl_load himg.segment himg.apart hintact
  rw [himg.copyLoadSegments_eq, Copying.Wrote, hwrites, nil_append]
  constructor
  · rintro ⟨w, hw, hlo, hhi⟩
    obtain ⟨s, hs, hw⟩ := mem_flatMap.mp hw
    have hle := (himg.segment s hs).filesz_le
    rcases mem_pair.mp hw with rfl | rfl
    · exact ⟨s, hs, hlo, by omega⟩
    · exact ⟨s, hs, by omega, by omega⟩
  · rintro ⟨s, hs, hlo, hhi⟩
    by_cases hfile : a < s.vaddr + s.filesz
    · exact ⟨_, mem_flatMap.mpr ⟨s, hs, mem_cons_self⟩, hlo, hfile⟩
    · exact ⟨_, mem_flatMap.mpr ⟨s, hs, mem_cons_of_mem _ mem_cons_self⟩,
        Nat.not_lt.mp hfile, by omega⟩

/-- **The loaded kernel.** Every segment is in memory, its bytes of the file followed by zeros.
Nothing was written outside of the pages that were allocated, iff from the page of any segment to
the end of any other there are a page less than all addresses, or there is nothing to write. -/
theorem copyLoadSegments_spec {m : Nat → UInt8} {h size : Nat} (himg : ElfImage m h size) :
    (∀ s ∈ loadSegments m h, s.Loaded m h (copyLoadSegments m h).mem) ∧
      ((∀ a, (copyLoadSegments m h).Wrote a → (kernelPages m h).Has a) ↔
        (∀ s ∈ loadSegments m h, ∀ s' ∈ loadSegments m h,
          s.vaddr + s.memsz - 0x1000 * (s'.vaddr / 0x1000) ≤ 2 ^ 64 - 0x1000) ∨
        ∀ s ∈ loadSegments m h, s.memsz = 0) := by
  constructor
  · have hintact : Intact m h size (Copying.mk m []).mem := fun _ _ _ => rfl
    rw [himg.copyLoadSegments_eq]
    exact (foldl_load himg.segment himg.apart hintact).1
  · obtain ⟨hlt, hall⟩ := himg.range_bounds
    have hstart : (kernelPages m h).start ≤ (calcLoadAddressRange m h).1 := by
      rw [kernelPages_start]
      exact Nat.mul_div_le _ _
    have hnum : (kernelPages m h).num =
        numPages (kernelPages m h).start (calcLoadAddressRange m h).2 := rfl
    simp only [← himg.span_le_iff, himg.wrote_iff, Pages.Has, hnum]
    constructor
    · intro hinside
      refine Classical.or_iff_not_imp_left.mpr fun hover s hs => ?_
      rw [numPages_eq_zero hlt hover] at hinside
      by_contra hpos
      have ha := hinside s.vaddr ⟨s, hs, Nat.le_refl _, by omega⟩
      omega
    · rintro (hfits | hempty) a ⟨s, hs, hlo, hhi⟩
      · have hs' := hall s hs
        have hpages := le_numPages (by omega) hlt hfits
        omega
      · rw [hempty s hs] at hhi
        omega

/-- A memory with a few numbers in it, by address, value and number of bytes. -/
def numbersAt (fields : List (Nat × Nat × Nat)) : Nat → UInt8 :=
  fields.foldl (fun m f => fillSlots m f.1 (leBytes f.2.1) f.2.2) fun _ => 0

/-- An image at 2 MiB with one segment for 1 MiB, of 8 bytes in the file and 16 in memory. -/
def oneSegment : Nat → UInt8 :=
  numbersAt [(0x200020, 0x40, 8), (0x200038, 1, 2), (0x200040, 1, 4), (0x200048, 0x78, 8),
    (0x200050, 0x100000, 8), (0x200060, 8, 8), (0x200068, 16, 8)]

theorem elfImage_oneSegment : ElfImage oneSegment 0x200000 0x80 := by
  have hloads : loadSegments oneSegment 0x200000 = [⟨0x78, 0x100000, 8, 16⟩] := by decide +kernel
  refine ⟨by decide, by decide, by decide +kernel, by rw [hloads]; nofun, ?_, ?_⟩
  · rw [hloads, forall_mem_singleton]
    refine ⟨by decide, by decide, by decide, fun a ha hin => ?_⟩
    simp only [Segment.InMem] at ha
    omega
  · rw [hloads]
    exact pairwise_singleton _ _

/-- The segment is written to its one page, and nothing else is. -/
theorem copyLoadSegments_oneSegment : kernelPages oneSegment 0x200000 = ⟨0x100000, 1⟩ ∧
    ∀ a, (copyLoadSegments oneSegment 0x200000).Wrote a →
      (kernelPages oneSegment 0x200000).Has a :=
  ⟨by decide +kernel,
    (copyLoadSegments_spec elfImage_oneSegment).2.mpr (.inl (by decide +kernel))⟩

/-- An image with a byte to clear at address 0 and another in the last page there is. -/
def twoEnds : Nat → UInt8 :=
  numbersAt [(0x200020, 0x40, 8), (0x200038, 2, 2), (0x200040, 1, 4), (0x200068, 1, 8),
    (0x200078, 1, 4), (0x200088, 0xfffffffffffff800, 8), (0x2000a0, 1, 8)]

theorem elfImage_twoEnds : ElfImage twoEnds 0x200000 0xb0 := by
  have hloads : loadSegments twoEnds 0x200000 =
      [⟨0, 0, 0, 1⟩, ⟨0, 0xfffffffffffff800, 0, 1⟩] := by
    decide +kernel
  refine ⟨by decide, by decide, by decide +kernel, by rw [hloads]; nofun, ?_, ?_⟩
  · rw [hloads, forall_mem_cons, forall_mem_singleton]
    refine ⟨⟨by decide, by decide, by decide, fun a ha hin => ?_⟩,
      ⟨by decide, by decide, by decide, fun a ha hin => ?_⟩⟩
    · simp only [Segment.InMem] at ha
      omega
    · simp only [Segment.InMem] at ha
      omega
  · rw [hloads, pairwise_pair]
    intro a ha
    simp only [Segment.InMem] at ha
    omega

/-- The range is so long that its pages are none by the count of `UefiMain`; the byte at address 0
is written all the same. -/
theorem copyLoadSegments_twoEnds : ElfImage twoEnds 0x200000 0xb0 ∧
    kernelPages twoEnds 0x200000 = ⟨0, 0⟩ ∧ (copyLoadSegments twoEnds 0x200000).Wrote 0 ∧
    ¬ (kernelPages twoEnds 0x200000).Has 0 := by
  have hpages : kernelPages twoEnds 0x200000 = ⟨0, 0⟩ := by decide +kernel
  refine ⟨elfImage_twoEnds, hpages, ?_, ?_⟩
  · rw [elfImage_twoEnds.wrote_iff]
    exact ⟨⟨0, 0, 0, 1⟩, by decide +kernel, by decide, by decide⟩
  · rw [hpages]
    exact fun hhas => absurd hhas.2 (by decide)

end UnagiOs.Loader
