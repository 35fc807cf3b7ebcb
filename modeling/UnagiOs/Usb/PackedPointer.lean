import UnagiOs.Theory.BitField
import UnagiOs.Usb.Trb

/-!
# Pointers packed into xHCI structures (registers.hpp, context.hpp, trb.hpp)

Registers, contexts and TRBs hold addresses without their low bits, which are zero by alignment:
`SetPointer` stores `p >> shift` in a bit-field and `Pointer` reads `field << shift`. Each structure
declares its own width. What it declares matters twice: the store cuts off what does not fit, and a
field that an `int` can hold is promoted to `int` before it is shifted.

`pointer_setPointer_iff`: all nine structures give back every aligned address and leave their other
bits alone, but for `DCBAAP_Bitmap`, whose field ends at bit 31: it gives back the addresses that
are sign extensions of 32 bits.
-/

namespace UnagiOs.Xhci

/-! ## The structures -/

/-- A structure with a bit-field for a pointer: its size in bits, the first bit of the field and its
width, and by how much the pointer is shifted. -/
structure PackedPointer where
  size : Nat
  lo : Nat
  width : Nat
  shift : Nat
  fits : lo + width ≤ size
  deriving DecidableEq

/-- `CRCR_Bitmap`, with `command_ring_pointer`. -/
def crcrBitmap : PackedPointer := ⟨64, 6, 58, 6, by decide⟩

/-- `DCBAAP_Bitmap`, with `device_context_base_address_array_pointer`. -/
def dcbaapBitmap : PackedPointer := ⟨64, 6, 26, 6, by decide⟩

/-- `ERSTBA_Bitmap`, with `event_ring_segment_table_base_address`. -/
def erstbaBitmap : PackedPointer := ⟨64, 6, 58, 6, by decide⟩

/-- `ERDP_Bitmap`, with `event_ring_dequeue_pointer`. -/
def erdpBitmap : PackedPointer := ⟨64, 4, 60, 4, by decide⟩

/-- `EndpointContext`, with `tr_dequeue_pointer` in its third and fourth word. -/
def endpointContext : PackedPointer := ⟨256, 68, 60, 4, by decide⟩

/-- `LinkTRB`, with `ring_segment_pointer`. -/
def linkTRB : PackedPointer := ⟨128, 4, 60, 4, by decide⟩

/-- `AddressDeviceCommandTRB`, with `input_context_pointer`. -/
def addressDeviceCommandTRB : PackedPointer := ⟨128, 4, 60, 4, by decide⟩

/-- `ConfigureEndpointCommandTRB`, with `input_context_pointer`. -/
def configureEndpointCommandTRB : PackedPointer := ⟨128, 4, 60, 4, by decide⟩

/-- `CommandCompletionEventTRB`, with `command_trb_pointer`. -/
def commandCompletionEventTRB : PackedPointer := ⟨128, 4, 60, 4, by decide⟩

def packedPointers : List PackedPointer :=
  [crcrBitmap, dcbaapBitmap, erstbaBitmap, erdpBitmap, endpointContext, linkTRB,
    addressDeviceCommandTRB, configureEndpointCommandTRB, commandCompletionEventTRB]

/-- `field << shift` as a `uint64_t`, for a bit-field declared as `uint64_t`: the operand is an
`int` if that can hold the field, else an `unsigned int` if that can. -/
def promotedShift {width : Nat} (field : BitVec width) (shift : Nat) : BitVec 64 :=
  if width < 32 then (field.setWidth 32 <<< shift).signExtend 64
  else if width = 32 then (field.setWidth 32 <<< shift).setWidth 64
  else field.setWidth 64 <<< shift

namespace PackedPointer

variable (t : PackedPointer)

/-- `Pointer`, `TransferRingBuffer`. -/
def pointer (bits : BitVec t.size) : BitVec 64 :=
  promotedShift (bits.extractLsb' t.lo t.width) t.shift

/-- `SetPointer`, `SetTransferRingBuffer`. -/
def setPointer (bits : BitVec t.size) (p : BitVec 64) : BitVec t.size :=
  setField bits t.lo t.width (p >>> t.shift).toNat

end PackedPointer

/-! ## Reading back -/

section Shift

variable {width shift : Nat} {p : BitVec 64}

/-- A wide field has room for all bits above the shift. -/
theorem promotedShift_wide (hw : 32 < width) (hsum : width + shift = 64)
    (hp : 2 ^ shift ∣ p.toNat) :
    promotedShift (BitVec.ofNat width (p >>> shift).toNat) shift = p := by
  rw [promotedShift, if_neg (by omega), if_neg (by omega)]
  refine BitVec.eq_of_toNat_eq ?_
  have hlt : p.toNat / 2 ^ shift < 2 ^ width := by
    rw [Nat.div_lt_iff_lt_mul (Nat.two_pow_pos _), ← Nat.pow_add, hsum]
    exact p.isLt
  have hle : 2 ^ width ≤ 2 ^ 64 := Nat.pow_le_pow_right (by decide) (by omega)
  rw [BitVec.toNat_shiftLeft, BitVec.toNat_setWidth, BitVec.toNat_ofNat, BitVec.toNat_ushiftRight,
    Nat.shiftRight_eq_div_pow, Nat.mod_eq_of_lt hlt, Nat.mod_eq_of_lt (Nat.lt_of_lt_of_le hlt hle),
    Nat.shiftLeft_eq, Nat.div_mul_cancel hp, Nat.mod_eq_of_lt p.isLt]

/-- A field that is promoted to `int` and ends at bit 31 after the shift: bit 31 is the sign. -/
theorem promotedShift_narrow (hw : width < 32) (hsum : width + shift = 32)
    (hp : 2 ^ shift ∣ p.toNat) :
    promotedShift (BitVec.ofNat width (p >>> shift).toNat) shift =
      (p.setWidth 32).signExtend 64 := by
  rw [promotedShift, if_pos hw]
  congr 1
  refine BitVec.eq_of_toNat_eq ?_
  have hle : 2 ^ width ≤ 2 ^ 32 := Nat.pow_le_pow_right (by decide) (by omega)
  have hmod : p.toNat / 2 ^ shift % 2 ^ width < 2 ^ width := Nat.mod_lt _ (Nat.two_pow_pos _)
  have hfield : p.toNat / 2 ^ shift % 2 ^ width * 2 ^ shift = p.toNat % 2 ^ 32 := by
    rw [← Nat.mul_mod_mul_right, Nat.div_mul_cancel hp, ← Nat.pow_add, hsum]
  rw [BitVec.toNat_shiftLeft, BitVec.toNat_setWidth, BitVec.toNat_ofNat, BitVec.toNat_ushiftRight,
    Nat.shiftRight_eq_div_pow, Nat.mod_eq_of_lt (Nat.lt_of_lt_of_le hmod hle), Nat.shiftLeft_eq,
    hfield, Nat.mod_mod, BitVec.toNat_setWidth]

/-- The sign extensions of 32 bits are the first and the last 2 GiB. -/
theorem signExtend_setWidth_eq_iff :
    (p.setWidth 32).signExtend 64 = p ↔ p.toNat < 2 ^ 31 ∨ 2 ^ 64 - 2 ^ 31 ≤ p.toNat := by
  have hlt := p.isLt
  have hmsb : (p.setWidth 32).msb = decide (2 ^ 31 ≤ p.toNat % 2 ^ 32) := by
    rw [BitVec.msb_eq_decide, BitVec.toNat_setWidth]
  rw [← BitVec.toNat_inj, BitVec.toNat_signExtend, hmsb, BitVec.toNat_setWidth,
    BitVec.toNat_setWidth]
  by_cases hhigh : 2 ^ 31 ≤ p.toNat % 2 ^ 32
  · rw [decide_eq_true hhigh, if_pos rfl]
    omega
  · rw [decide_eq_false hhigh, if_neg Bool.false_ne_true]
    omega

end Shift

namespace PackedPointer

theorem pointer_setPointer (t : PackedPointer) (bits : BitVec t.size) (p : BitVec 64) :
    t.pointer (t.setPointer bits p) =
      promotedShift (BitVec.ofNat t.width (p >>> t.shift).toNat) t.shift := by
  rw [pointer, setPointer, extract_setField t.fits]

/-- All bits but those of the field. -/
theorem getLsbD_setPointer (t : PackedPointer) (bits : BitVec t.size) (p : BitVec 64) {i : Nat}
    (hi : i < t.lo ∨ t.lo + t.width ≤ i) :
    (t.setPointer bits p).getLsbD i = bits.getLsbD i := by
  by_cases hsize : i < t.size
  · rw [setPointer, getLsbD_setField hsize, if_neg (by omega)]
  · rw [BitVec.getLsbD_of_ge _ _ (by omega), BitVec.getLsbD_of_ge _ _ (by omega)]

end PackedPointer

/-- **Setting a pointer and reading it back**, in each of the structures, for any contents and any
aligned address. -/
theorem pointer_setPointer_iff {t : PackedPointer} (ht : t ∈ packedPointers) (bits : BitVec t.size)
    {p : BitVec 64} (hp : 2 ^ t.shift ∣ p.toNat) :
    (t.pointer (t.setPointer bits p) = p ↔
        (t = dcbaapBitmap → p.toNat < 2 ^ 31 ∨ 2 ^ 64 - 2 ^ 31 ≤ p.toNat)) ∧
      ∀ i, i < t.lo ∨ t.lo + t.width ≤ i →
        (t.setPointer bits p).getLsbD i = bits.getLsbD i := by
  refine ⟨?_, fun i hi => t.getLsbD_setPointer bits p hi⟩
  rw [t.pointer_setPointer]
  by_cases hdcbaap : t = dcbaapBitmap
  · subst hdcbaap
    have hback : promotedShift (BitVec.ofNat dcbaapBitmap.width
        (p >>> dcbaapBitmap.shift).toNat) dcbaapBitmap.shift = (p.setWidth 32).signExtend 64 :=
      promotedShift_narrow (by decide) rfl hp
    rw [hback, signExtend_setWidth_eq_iff]
    exact ⟨fun h _ => h, fun h => h rfl⟩
  · have hwide : 32 < t.width ∧ t.width + t.shift = 64 := by
      simp only [packedPointers, List.mem_cons, List.not_mem_nil, or_false] at ht
      rcases ht with rfl | rfl | rfl | rfl | rfl | rfl | rfl | rfl | rfl
      case inr.inl => exact absurd rfl hdcbaap
      all_goals decide
    exact iff_of_true (promotedShift_wide hwide.1 hwide.2 hp) fun h => absurd h hdcbaap

/-- The event ring's dequeue pointer, behind 4 GiB, in a register with all bits set. -/
theorem pointer_setPointer_erdp :
    erdpBitmap.pointer (erdpBitmap.setPointer (BitVec.allOnes 64) 0x123456780) = 0x123456780 :=
  ((pointer_setPointer_iff (t := erdpBitmap) (by decide) (BitVec.allOnes 64)
    (p := 0x123456780) (by decide)).1).mpr (by decide)

/-- A device context array at 2 GiB is read back as an address of the last 2 GiB, and one at 4 GiB
as the null pointer. -/
theorem pointer_setPointer_dcbaap :
    dcbaapBitmap.pointer (dcbaapBitmap.setPointer 0 0x80000000) = 0xffffffff80000000 ∧
      dcbaapBitmap.pointer (dcbaapBitmap.setPointer 0 0x100000000) = 0 := by
  decide

end UnagiOs.Xhci
