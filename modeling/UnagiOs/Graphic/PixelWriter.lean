import Mathlib.Algebra.Order.Ring.Nat
import UnagiOs.Theory.Slots

/-!
# Pixels of the frame buffer (graphics.hpp, graphics.cpp)

A pixel has four bytes, the last of them unused. `PixelAt` computes where they are in
`unsigned int`, into which a negative coordinate is converted: there is no check that a pixel is on
the screen.

`write_inside`: a pixel on the screen is written inside of the frame buffer, however large that is.
-/

namespace UnagiOs

structure PixelColor where
  r : UInt8
  g : UInt8
  b : UInt8
  deriving DecidableEq, Repr

inductive PixelFormat where
  | kPixelRGBResv8BitPerColor
  | kPixelBGRResv8BitPerColor
  deriving DecidableEq, Repr

/-- `FrameBufferConfig`. Offsets are counted from `frame_buffer_base`. -/
structure FrameBufferConfig where
  pixelsPerScanLine : UInt32
  horizontalResolution : UInt32
  verticalResolution : UInt32
  pixelFormat : PixelFormat

/-- A call of `PixelWriter::Write`. -/
structure PixelWrite where
  x : Int32
  y : Int32
  c : PixelColor
  deriving DecidableEq

/-- A coordinate that is not negative is not changed by the conversion. -/
theorem toNat_toUInt32 {x : Int32} (hx : 0 ≤ x.toInt) : (x.toUInt32.toNat : Int) = x.toInt := by
  have hcond : x.toInt = if 2 * x.toBitVec.toNat < 2 ^ 32 then (x.toBitVec.toNat : Int)
      else x.toBitVec.toNat - (2 ^ 32 : Nat) := BitVec.toInt_eq_toNat_cond x.toBitVec
  have hlt : x.toBitVec.toNat < 2 ^ 32 := x.toBitVec.isLt
  show (x.toBitVec.toNat : Int) = x.toInt
  split at hcond <;> omega

namespace FrameBufferConfig

variable (config : FrameBufferConfig) {w : PixelWrite} {i : Nat}

/-- `PixelWriter::PixelAt` -/
def pixelAt (x y : Int32) : UInt32 := 4 * (config.pixelsPerScanLine * y.toUInt32 + x.toUInt32)

/-- `Write` of the two pixel writers. -/
def write (frameBuffer : Nat → UInt8) (w : PixelWrite) : Nat → UInt8 :=
  let p := (config.pixelAt w.x w.y).toNat
  match config.pixelFormat with
  | .kPixelRGBResv8BitPerColor =>
    setSlot (setSlot (setSlot frameBuffer p w.c.r) (p + 1) w.c.g) (p + 2) w.c.b
  | .kPixelBGRResv8BitPerColor =>
    setSlot (setSlot (setSlot frameBuffer p w.c.b) (p + 1) w.c.g) (p + 2) w.c.r

/-- The bytes of the frame buffer. -/
def size : Nat := 4 * (config.pixelsPerScanLine.toNat * config.verticalResolution.toNat)

/-- The pixel is on the screen. -/
def OnScreen (w : PixelWrite) : Prop :=
  (0 ≤ w.x.toInt ∧ w.x.toInt < config.horizontalResolution.toNat) ∧
    0 ≤ w.y.toInt ∧ w.y.toInt < config.verticalResolution.toNat

variable {config}

theorem toNat_pixelAt {x y : Int32} : (config.pixelAt x y).toNat =
    4 * (config.pixelsPerScanLine.toNat * y.toUInt32.toNat + x.toUInt32.toNat) % 2 ^ 32 := by
  rw [pixelAt]
  simp [UInt32.toNat_mul, UInt32.toNat_add, Nat.mul_mod, Nat.add_mod]

/-- The offset of a pixel on the screen. If it overflows, then the frame buffer is larger than all
offsets. -/
theorem pixelAt_lt (hline : config.horizontalResolution ≤ config.pixelsPerScanLine)
    (h : config.OnScreen w) : (config.pixelAt w.x w.y).toNat + 3 < config.size := by
  obtain ⟨⟨hx, hright⟩, hy, hbottom⟩ := h
  have hx' := toNat_toUInt32 hx
  have hy' := toNat_toUInt32 hy
  have hline' : config.horizontalResolution.toNat ≤ config.pixelsPerScanLine.toNat := hline
  have hrow : config.pixelsPerScanLine.toNat * (w.y.toUInt32.toNat + 1) ≤
      config.pixelsPerScanLine.toNat * config.verticalResolution.toNat :=
    Nat.mul_le_mul_left _ (by omega)
  rw [Nat.mul_add, Nat.mul_one] at hrow
  rw [toNat_pixelAt, size]
  omega

/-- **A pixel on the screen** is written inside of the frame buffer. -/
theorem write_inside (hline : config.horizontalResolution ≤ config.pixelsPerScanLine)
    (h : config.OnScreen w) (frameBuffer : Nat → UInt8) (hi : config.size ≤ i) :
    config.write frameBuffer w i = frameBuffer i := by
  have hlt := pixelAt_lt hline h
  rw [write]
  cases config.pixelFormat
  all_goals
    dsimp only
    rw [setSlot, if_neg (by omega), setSlot, if_neg (by omega), setSlot, if_neg (by omega)]

theorem foldl_write_inside (hline : config.horizontalResolution ≤ config.pixelsPerScanLine)
    {ws : List PixelWrite} (h : ∀ w ∈ ws, config.OnScreen w) (frameBuffer : Nat → UInt8)
    (hi : config.size ≤ i) : ws.foldl config.write frameBuffer i = frameBuffer i := by
  induction ws generalizing frameBuffer with
  | nil => rfl
  | cons w ws ih =>
    obtain ⟨hw, hws⟩ := List.forall_mem_cons.mp h
    rw [List.foldl_cons, ih hws, write_inside hline hw frameBuffer hi]

end FrameBufferConfig

end UnagiOs
