import UnagiOs.Util.Dlist
import UnagiOs.Util.Kutil

/-!
# The chunk heap (memory/heapdl.c) and its front end (memory/memory.c)

Chunk headers live in band, in front of the memory they describe, so the model
is a word memory plus the five globals of heapdl.c. A `CHUNK *` is the address
of its header. On i686 the header is

| offset | field      |
|--------|------------|
| 0, 4   | `all`      |
| 8      | `isUsed`   |
| 12     | `size`     |
| 16, 20 | `free`     |

padded to 32 bytes by its alignment attribute. `isUsed` is a byte, followed by
three bytes of padding: it is the low byte of its word, and an assignment to it
leaves the rest of the word alone.

`kHeapdlMmMalloc` walks the free ring. A walk longer than the address space
has run into a cycle that misses the head, so it gets that much fuel and
answers `none` beyond it.
-/

namespace UnagiOs

/-- `OS_HEAP_BLOCK_SIZE`. -/
def osHeapBlockSize : Nat := 4096

/-- `OS_MEMORY_ALIGN`. -/
def osMemoryAlign : Nat := 16

namespace CHUNK

/-- `sizeof(CHUNK)`. -/
def sizeof : Nat := 32

/-- Offset of `all`. -/
def all : Nat := 0

/-- Offset of `isUsed`. -/
def isUsed : Nat := 8

/-- Offset of `size`. -/
def size : Nat := 12

/-- Offset of `free`. -/
def free : Nat := 16

end CHUNK

/-- The byte `isUsed` of a chunk, as a condition. -/
def Mem.isUsed (m : Mem) (chunk : Nat) : Bool :=
  decide (m (chunk + CHUNK.isUsed) % 256 ≠ 0)

/-- Assign to the byte `isUsed` of a chunk. -/
def Mem.setUsed (m : Mem) (chunk : Nat) (v : Bool) : Mem :=
  m.write (chunk + CHUNK.isUsed) (m (chunk + CHUNK.isUsed) / 256 * 256 + v.toNat)

/-- The globals of heapdl.c and the memory they point into. -/
structure Heapdl where
  mem : Mem
  first : Nat
  last : Nat
  freeChunkHead : Nat
  memAll : Nat
  memFree : Nat

namespace Heapdl

/-- Assign to a word field of a chunk header. -/
def set (h : Heapdl) (chunk field v : Nat) : Heapdl :=
  { h with mem := h.mem.write (chunk + field) v }

/-- Run a list primitive on the memory. -/
def onMem (h : Heapdl) (f : Mem → Mem) : Heapdl :=
  { h with mem := f h.mem }

end Heapdl

/-- The header size after alignment, `align_address_to_upper(sizeof(CHUNK), OS_MEMORY_ALIGN)`. -/
def alignedHeader : Nat := alignAddressToUpper CHUNK.sizeof osMemoryAlign

/-- `kmemset(ptr, 0, 4 * words)` on whole words. -/
def kmemsetZero (m : Mem) (ptr : Nat) : Nat → Mem
  | 0 => m
  | words + 1 => (kmemsetZero m ptr words).write (ptr + 4 * words) 0

/-- `chunk_init`. -/
def chunkInit (h : Heapdl) (chunk : Nat) : Heapdl :=
  let h := h.onMem fun m => kmemsetZero m chunk (CHUNK.sizeof / 4)
  let h := h.onMem fun m => dlistInit Mem.links m (chunk + CHUNK.all)
  let h := h.onMem fun m => m.setUsed chunk false
  let h := h.set chunk CHUNK.size alignedHeader
  h.onMem fun m => dlistInit Mem.links m (chunk + CHUNK.free)

/-- `k_heapdl_mm_init`. -/
def kHeapdlMmInit (mem : Mem) (memStart memEnd : Nat) : Heapdl :=
  let alignedMStart := alignAddressToUpper memStart osHeapBlockSize
  let alignedMEnd := alignAddressToLower memEnd osHeapBlockSize
  let first := alignedMStart
  let second := u32 (first + CHUNK.sizeof)
  let last := sub32 alignedMEnd CHUNK.sizeof
  let h : Heapdl :=
    { mem := mem, first := first, last := last, freeChunkHead := 0, memAll := 0, memFree := 0 }
  let h := chunkInit h first
  let h := chunkInit h second
  let h := chunkInit h last
  let h := h.onMem fun m => dlistInsertAfter Mem.links m (first + CHUNK.all) (second + CHUNK.all)
  let h := h.onMem fun m => dlistInsertAfter Mem.links m (second + CHUNK.all) (last + CHUNK.all)
  let h := h.onMem fun m => m.setUsed first true
  let h := h.onMem fun m => m.setUsed last true
  let h := h.set second CHUNK.size (sub32 last second)
  let h := { h with freeChunkHead := first }
  let h := h.onMem fun m => dlistInsertAfter Mem.links m (first + CHUNK.free) (second + CHUNK.free)
  let memFree := sub32 (h.mem (second + CHUNK.size)) alignedHeader
  { h with memFree := memFree, memAll := memFree }

/-- `chunk_calc_actual_free`. -/
def chunkCalcActualFree (h : Heapdl) (chunk : Nat) : Nat :=
  sub32 (h.mem (chunk + CHUNK.size)) alignedHeader

/-- `chunk_calc_free_offset`. -/
def chunkCalcFreeOffset (chunk : Nat) : Nat :=
  u32 (chunk + alignedHeader)

/-- `chunk_calc_chunk_by_ptr`. -/
def chunkCalcChunkByPtr (ptr : Nat) : Nat :=
  sub32 ptr alignedHeader

/-- `chunk_slice`. -/
def chunkSlice (h : Heapdl) (chunk s : Nat) : Heapdl :=
  let chunkB := u32 (chunkCalcFreeOffset chunk + s)
  let h := chunkInit h chunkB
  let h := h.set chunkB CHUNK.size (sub32 (chunkCalcActualFree h chunk) s)
  let h := h.set chunk CHUNK.size
    (sub32 (h.mem (chunk + CHUNK.size)) (h.mem (chunkB + CHUNK.size)))
  let h := h.onMem fun m => dlistInsertAfter Mem.links m (chunk + CHUNK.all) (chunkB + CHUNK.all)
  h.onMem fun m => dlistInsertAfter Mem.links m (chunk + CHUNK.free) (chunkB + CHUNK.free)

/-- `chunk_engage`. -/
def chunkEngage (h : Heapdl) (chunk : Nat) : Heapdl :=
  let h := h.onMem fun m => m.setUsed chunk true
  let h := h.onMem fun m => dlistRemove Mem.links m (chunk + CHUNK.free)
  { h with memFree := sub32 h.memFree (h.mem (chunk + CHUNK.size)) }

/-- `chunk_merge`. -/
def chunkMerge (h : Heapdl) (chunkA chunkB : Nat) : Heapdl :=
  let h := h.onMem fun m => dlistRemove Mem.links m (chunkB + CHUNK.all)
  let h := h.onMem fun m => dlistRemove Mem.links m (chunkB + CHUNK.free)
  let h := h.set chunkA CHUNK.size
    (u32 (h.mem (chunkA + CHUNK.size) + h.mem (chunkB + CHUNK.size)))
  { h with memFree := u32 (h.memFree + CHUNK.sizeof) }

/-- `chunk_free`. The two `container_of` calls subtract the offset of `all`. -/
def chunkFree (h : Heapdl) (chunk : Nat) : Heapdl :=
  let h := h.onMem fun m => m.setUsed chunk false
  let h := { h with
    memFree := u32 (h.memFree + sub32 (h.mem (chunk + CHUNK.size)) CHUNK.sizeof) }
  let prevChunk := Mem.links.prev h.mem (chunk + CHUNK.all) - CHUNK.all
  let nextChunk := Mem.links.next h.mem (chunk + CHUNK.all) - CHUNK.all
  if h.mem.isUsed prevChunk = false then
    let h := h.onMem fun m =>
      dlistInsertAfter Mem.links m (prevChunk + CHUNK.free) (chunk + CHUNK.free)
    chunkMerge h prevChunk chunk
  else if h.mem.isUsed nextChunk = false then
    let h := h.onMem fun m =>
      dlistInsertBefore Mem.links m (nextChunk + CHUNK.free) (chunk + CHUNK.free)
    chunkMerge h chunk nextChunk
  else
    h.onMem fun m =>
      dlistInsertAfter Mem.links m (h.freeChunkHead + CHUNK.free) (chunk + CHUNK.free)

/-- The test in the loop of `k_heapdl_mm_malloc`: the chunk whose `free` node
is `d` has room for `s` bytes. -/
def chunkFits (h : Heapdl) (s d : Nat) : Bool :=
  let pos := d - CHUNK.free
  decide (s ≤ h.mem (pos + CHUNK.size)) && decide (s ≤ chunkCalcActualFree h pos)

/-- `k_heapdl_mm_malloc`: the new heap and the payload address, 0 for `NULL`. -/
def kHeapdlMmMalloc (h : Heapdl) (s : Nat) : Option (Heapdl × Nat) :=
  let head := h.freeChunkHead + CHUNK.free
  if s > h.memFree ∨ h.memFree = 0 ∨ Mem.links.next h.mem head = head then some (h, 0)
  else
    match listForEachEntry Mem.links h.mem head (chunkFits h s) (2 ^ 32)
        (Mem.links.next h.mem head) with
    | none => none
    | some none => some (h, 0)
    | some (some d) =>
      let pos := d - CHUNK.free
      let chunkFree := chunkCalcActualFree h pos
      if chunkFree - s < osHeapBlockSize then
        -- no huge size difference: use the chunk whole
        some (chunkEngage h pos, chunkCalcFreeOffset pos)
      else
        some (chunkEngage (chunkSlice h pos s) pos, chunkCalcFreeOffset pos)

/-- `k_heapdl_mm_free`. -/
def kHeapdlMmFree (h : Heapdl) (ptr : Nat) : Heapdl :=
  if ptr = 0 then h
  else
    let chunk := chunkCalcChunkByPtr ptr
    if h.mem.isUsed chunk then chunkFree h chunk else h

/-- `kmalloc`, with the allocator that config.h selects (`OS_HEAP_MM_ALT` = 0). -/
def kmalloc (h : Heapdl) (size : Nat) : Option (Heapdl × Nat) :=
  kHeapdlMmMalloc h (alignAddressToUpper size osHeapBlockSize)

/-- `kfree`. -/
def kfree (h : Heapdl) (ptr : Nat) : Heapdl :=
  kHeapdlMmFree h ptr

/-- `k_heapdl_mm_get_free`. -/
def kHeapdlMmGetFree (h : Heapdl) : Nat := h.memFree

/-- `k_heapdl_mm_get_usage`. -/
def kHeapdlMmGetUsage (h : Heapdl) : Nat := sub32 h.memAll h.memFree

end UnagiOs
