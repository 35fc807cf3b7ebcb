import UnagiOs.Graphic.PixelWriter
import UnagiOs.Theory.Machine

/-!
# The mouse cursor (mouse.cpp, main.cpp)

The cursor is an image of 15 × 24 pixels. `MoveRelative` paints the background over it, adds to its
position what the mouse has reported, and draws it there. Nothing keeps the position on the screen.

`mouse_inside_iff`: the pixels that are written are on the screen as long as the image fits wherever
the displacements so far lead from the first position, and no longer: in each of its outermost
columns and rows some pixel of the image is drawn.
-/

namespace UnagiOs

def kMouseCursorWidth : Nat := 15

def kMouseCursorHeight : Nat := 24

def mouseCursorShape : List String := [
  "@              ",
  "@@             ",
  "@.@            ",
  "@..@           ",
  "@...@          ",
  "@....@         ",
  "@.....@        ",
  "@......@       ",
  "@.......@      ",
  "@........@     ",
  "@.........@    ",
  "@..........@   ",
  "@...........@  ",
  "@............@ ",
  "@......@@@@@@@@",
  "@......@       ",
  "@....@@.@      ",
  "@...@ @.@      ",
  "@..@   @.@     ",
  "@.@    @.@     ",
  "@@      @.@    ",
  "@       @.@    ",
  "         @.@   ",
  "         @@@   "]

/-- `mouse_cursor_shape[dy][dx]` -/
def shapeAt (dy dx : Nat) : Char := (mouseCursorShape.getD dy "").toList.getD dx ' '

structure Vector2D (T : Type) where
  x : T
  y : T

/-- `operator+=` -/
def Vector2D.add {T : Type} [Add T] (v rhs : Vector2D T) : Vector2D T :=
  ⟨v.x + rhs.x, v.y + rhs.y⟩

/-- The nested loops over the image; `color` is what a character of it is written in, if it is. -/
def cursorWrites (color : Char → Option PixelColor) (position : Vector2D Int32) :
    List PixelWrite :=
  (List.range kMouseCursorHeight).flatMap fun dy =>
    (List.range kMouseCursorWidth).filterMap fun dx =>
      (color (shapeAt dy dx)).map fun c =>
        ⟨position.x + Int32.ofNat dx, position.y + Int32.ofNat dy, c⟩

def drawMouseCursor (position : Vector2D Int32) : List PixelWrite :=
  cursorWrites (fun c =>
    if c = '@' then some ⟨0, 0, 0⟩ else if c = '.' then some ⟨255, 255, 255⟩ else none) position

def eraseMouseCursor (position : Vector2D Int32) (eraseColor : PixelColor) : List PixelWrite :=
  cursorWrites (fun c => if c ≠ ' ' then some eraseColor else none) position

structure MouseCursor where
  eraseColor : PixelColor
  position : Vector2D Int32

namespace MouseCursor

/-- `MouseCursor::MoveRelative`: the cursor after it, and its calls of `Write`. -/
def moveRelative (m : MouseCursor) (displacement : Vector2D Int32) :
    MouseCursor × List PixelWrite :=
  let position := m.position.add displacement
  ({ m with position }, eraseMouseCursor m.position m.eraseColor ++ drawMouseCursor position)

/-- `MouseObserver` -/
def mouseObserver (m : MouseCursor) (displacement : Int8 × Int8) :
    MouseCursor × List PixelWrite :=
  m.moveRelative ⟨displacement.1.toInt32, displacement.2.toInt32⟩

end MouseCursor

/-- The cursor and the memory from `frame_buffer_base` on. -/
structure MouseScreen where
  cursor : MouseCursor
  frameBuffer : Nat → UInt8

/-- The constructor of `MouseCursor`. -/
def mouseCursor (config : FrameBufferConfig) (frameBuffer : Nat → UInt8) (eraseColor : PixelColor)
    (position : Vector2D Int32) : MouseScreen where
  cursor := ⟨eraseColor, position⟩
  frameBuffer := (drawMouseCursor position).foldl config.write frameBuffer

/-- A report of the mouse. -/
def MouseScreen.report (config : FrameBufferConfig) (s : MouseScreen) (d : Int8 × Int8) :
    MouseScreen where
  cursor := (s.cursor.mouseObserver d).1
  frameBuffer := (s.cursor.mouseObserver d).2.foldl config.write s.frameBuffer

def cursorMachine (config : FrameBufferConfig) : Machine MouseScreen (Int8 × Int8) where
  step s d := some (s.report config d)

/-! ## One axis -/

/-- The `width` pixels from `x` on are below `resolution`, and each of them is an `int`. -/
def FitsIn (x : Int) (width resolution : Nat) : Prop :=
  0 ≤ x ∧ x + width ≤ resolution ∧ x + width ≤ 2 ^ 31

instance FitsIn.decidable {x : Int} {width resolution : Nat} :
    Decidable (FitsIn x width resolution) :=
  inferInstanceAs (Decidable (_ ∧ _ ∧ _))

/-- A pixel behind the largest `int` is negative. -/
theorem toInt_add_ofNat (x : Int32) {d : Nat} (hd : d < 2 ^ 31) :
    (x + Int32.ofNat d).toInt =
      if x.toInt + d < 2 ^ 31 then x.toInt + d else x.toInt + d - 2 ^ 32 := by
  have hlow := x.le_toInt
  have hhigh := x.toInt_lt
  rw [Int32.toInt_add, Int32.toInt_ofNat_of_lt hd, Int.bmod_eq_emod]
  split <;> split <;> omega

theorem FitsIn.add {x : Int32} {width resolution d : Nat} (h : FitsIn x.toInt width resolution)
    (hd : d < width) :
    0 ≤ (x + Int32.ofNat d).toInt ∧ (x + Int32.ofNat d).toInt < resolution := by
  obtain ⟨hx, hres, hint⟩ := h
  rw [toInt_add_ofNat x (by omega), if_pos (by omega)]
  omega

/-- The first and the last pixel are enough. -/
theorem FitsIn.of_ends {x : Int32} {width resolution : Nat} (hwidth : width < 2 ^ 31)
    (hfirst : 0 ≤ (x + Int32.ofNat 0).toInt) (hlast : 0 ≤ (x + Int32.ofNat width).toInt)
    (hres : (x + Int32.ofNat width).toInt < resolution) :
    FitsIn x.toInt (width + 1) resolution := by
  have hhigh := x.toInt_lt
  rw [toInt_add_ofNat x (by decide), if_pos (by omega)] at hfirst
  rw [toInt_add_ofNat x hwidth] at hlast hres
  split at hlast
  case isTrue hint =>
    rw [if_pos hint] at hres
    refine ⟨?_, ?_, ?_⟩ <;> omega
  case isFalse => omega

/-- A displacement from a place that fits to one that fits does not wrap around, whether the sum is
taken in 32 bits or without a bound. -/
theorem FitsIn.toInt_add_toInt32 {x : Int32} {width resolution : Nat}
    (h : FitsIn x.toInt width resolution) (hwidth : 0 < width) {d : Int8}
    (hfits : FitsIn (x + d.toInt32).toInt width resolution ∨
      FitsIn (x.toInt + d.toInt) width resolution) :
    (x + d.toInt32).toInt = x.toInt + d.toInt := by
  obtain ⟨hx, -, hint⟩ := h
  have hlow := d.le_toInt
  have hhigh := d.toInt_lt
  have hsum : (x + d.toInt32).toInt =
      if x.toInt + d.toInt < 2 ^ 31 then x.toInt + d.toInt else x.toInt + d.toInt - 2 ^ 32 := by
    rw [Int32.toInt_add, Int8.toInt_toInt32, Int.bmod_eq_emod]
    split <;> split <;> omega
  rw [hsum] at hfits ⊢
  split at hfits
  case isTrue hlt => exact if_pos hlt
  case isFalse =>
    -- behind the largest `int` the image fits in neither of the two readings
    obtain ⟨hneg, -, -⟩ | ⟨-, -, hbig⟩ := hfits
    · omega
    · omega

/-! ## The image -/

/-- The image fits on the screen. -/
def FrameBufferConfig.Fits (config : FrameBufferConfig) (place : Vector2D Int) : Prop :=
  FitsIn place.x kMouseCursorWidth config.horizontalResolution.toNat ∧
    FitsIn place.y kMouseCursorHeight config.verticalResolution.toNat

instance FrameBufferConfig.Fits.decidable {config : FrameBufferConfig} {place : Vector2D Int} :
    Decidable (config.Fits place) :=
  inferInstanceAs (Decidable (_ ∧ _))

/-- Where a few displacements lead from the position of the cursor: their sum, without a bound. -/
def MouseCursor.placeAfter (m : MouseCursor) (ds : List (Int8 × Int8)) : Vector2D Int where
  x := ds.foldl (fun x d => x + d.1.toInt) m.position.x.toInt
  y := ds.foldl (fun y d => y + d.2.toInt) m.position.y.toInt

variable {config : FrameBufferConfig}

theorem mem_cursorWrites {color : Char → Option PixelColor} {position : Vector2D Int32}
    {w : PixelWrite} : w ∈ cursorWrites color position ↔
      ∃ dy < kMouseCursorHeight, ∃ dx < kMouseCursorWidth, ∃ c, color (shapeAt dy dx) = some c ∧
        ⟨position.x + Int32.ofNat dx, position.y + Int32.ofNat dy, c⟩ = w := by
  simp only [cursorWrites, List.mem_flatMap, List.mem_filterMap, List.mem_range,
    Option.map_eq_some_iff]

theorem onScreen_cursorWrites {position : Vector2D Int32}
    (h : config.Fits ⟨position.x.toInt, position.y.toInt⟩) {color : Char → Option PixelColor} :
    ∀ w ∈ cursorWrites color position, config.OnScreen w := by
  intro w hw
  obtain ⟨dy, hdy, dx, hdx, c, -, rfl⟩ := mem_cursorWrites.mp hw
  exact ⟨h.1.add hdx, h.2.add hdy⟩

/-- The black pixels of the image are drawn. -/
theorem mem_drawMouseCursor (dy dx : Nat) (hdy : dy < kMouseCursorHeight)
    (hdx : dx < kMouseCursorWidth) (hshape : shapeAt dy dx = '@') (position : Vector2D Int32) :
    ⟨position.x + Int32.ofNat dx, position.y + Int32.ofNat dy, ⟨0, 0, 0⟩⟩ ∈
      drawMouseCursor position :=
  mem_cursorWrites.mpr ⟨dy, hdy, dx, hdx, _, if_pos hshape, rfl⟩

/-- The tips of the arrow are in the outermost columns and rows of the image. -/
theorem fits_of_draw {position : Vector2D Int32}
    (h : ∀ w ∈ drawMouseCursor position, config.OnScreen w) :
    config.Fits ⟨position.x.toInt, position.y.toInt⟩ := by
  obtain ⟨⟨hleft, -⟩, htop, -⟩ :=
    h _ (mem_drawMouseCursor 0 0 (by decide) (by decide) rfl position)
  obtain ⟨⟨hright, hright'⟩, -⟩ :=
    h _ (mem_drawMouseCursor 14 14 (by decide) (by decide) rfl position)
  obtain ⟨-, hbottom, hbottom'⟩ :=
    h _ (mem_drawMouseCursor 23 9 (by decide) (by decide) rfl position)
  constructor
  · exact FitsIn.of_ends (by decide) hleft hright hright'
  · exact FitsIn.of_ends (by decide) htop hbottom hbottom'

/-! ## Runs -/

/-- From a place where the image fits to another, the cursor goes as the displacement says. -/
theorem MouseCursor.placeAfter_mouseObserver {m : MouseCursor} {d : Int8 × Int8}
    (h : config.Fits (m.placeAfter []))
    (hfits : config.Fits ((m.mouseObserver d).1.placeAfter []) ∨ config.Fits (m.placeAfter [d]))
    (ds : List (Int8 × Int8)) : (m.mouseObserver d).1.placeAfter ds = m.placeAfter (d :: ds) := by
  have hx : (m.position.x + d.1.toInt32).toInt = m.position.x.toInt + d.1.toInt :=
    h.1.toInt_add_toInt32 (by decide) (hfits.imp And.left And.left)
  have hy : (m.position.y + d.2.toInt32).toInt = m.position.y.toInt + d.2.toInt :=
    h.2.toInt_add_toInt32 (by decide) (hfits.imp And.right And.right)
  simp only [placeAfter, mouseObserver, moveRelative, Vector2D.add, hx, hy, List.foldl_cons]

/-- **One report**: if the image fits before it, then what is written is on the screen iff the image
fits where the displacement leads. -/
theorem mouseObserver_onScreen_iff {m : MouseCursor} (h : config.Fits (m.placeAfter []))
    (d : Int8 × Int8) : (∀ w ∈ (m.mouseObserver d).2, config.OnScreen w) ↔
      config.Fits (m.placeAfter [d]) := by
  constructor
  · intro hw
    have hfits : config.Fits ((m.mouseObserver d).1.placeAfter []) :=
      fits_of_draw fun w hdraw => hw w (List.mem_append_right _ hdraw)
    rw [← m.placeAfter_mouseObserver h (.inl hfits)]
    exact hfits
  · intro hfits w hw
    rw [← m.placeAfter_mouseObserver h (.inr hfits)] at hfits
    rcases List.mem_append.mp hw with herase | hdraw
    · exact onScreen_cursorWrites h w herase
    · exact onScreen_cursorWrites hfits w hdraw

/-- The reports one by one, and all of them from the first position. -/
theorem allSteps_fits_iff {s : MouseScreen} (h : config.Fits (s.cursor.placeAfter []))
    {ds : List (Int8 × Int8)} :
    (cursorMachine config).AllSteps (fun s d => config.Fits (s.cursor.placeAfter [d])) s ds ↔
      ∀ n ≤ ds.length, config.Fits (s.cursor.placeAfter (ds.take n)) := by
  induction ds generalizing s with
  | nil =>
    refine ⟨fun _ n _ => ?_, fun _ => trivial⟩
    rw [List.take_nil]
    exact h
  | cons d ds ih =>
    -- the rest of the reports starts from where the first one leads
    have hrest : config.Fits (s.cursor.placeAfter [d]) →
        ((cursorMachine config).AllSteps (fun s d => config.Fits (s.cursor.placeAfter [d]))
            (s.report config d) ds ↔
          ∀ n ≤ ds.length, config.Fits (s.cursor.placeAfter (d :: ds.take n))) := by
      intro hfits
      have hmove : ∀ ds, (s.report config d).cursor.placeAfter ds = s.cursor.placeAfter (d :: ds) :=
        s.cursor.placeAfter_mouseObserver h (.inr hfits)
      rw [ih ((hmove []).symm ▸ hfits)]
      simp only [hmove]
    constructor
    · rintro ⟨hfits, hsteps⟩ n hn
      cases n with
      | zero => exact h
      | succ n => exact (hrest hfits).mp (hsteps _ rfl) n (Nat.le_of_succ_le_succ hn)
    · intro hall
      have hfits : config.Fits (s.cursor.placeAfter [d]) := by
        have hone := hall 1 (Nat.succ_le_succ (Nat.zero_le _))
        rwa [List.take_succ_cons, List.take_zero] at hone
      refine ⟨hfits, fun s' hs' => ?_⟩
      cases hs'
      exact (hrest hfits).mpr fun n hn => hall (n + 1) (Nat.succ_le_succ hn)

/-- **The mouse cursor.** From a position at which the image fits, the pixels that are written are
on the screen iff the image fits wherever the first displacements lead from there, however many; and
then no byte outside of the frame buffer is written. -/
theorem mouse_inside_iff (config : FrameBufferConfig) {s : MouseScreen}
    (hfits : config.Fits (s.cursor.placeAfter [])) (ds : List (Int8 × Int8)) :
    ((cursorMachine config).Always (fun _ => True)
        (fun s d _ => ∀ w ∈ (s.cursor.mouseObserver d).2, config.OnScreen w) s ds ↔
      ∀ n ≤ ds.length, config.Fits (s.cursor.placeAfter (ds.take n))) ∧
    (config.horizontalResolution ≤ config.pixelsPerScanLine →
      (∀ n ≤ ds.length, config.Fits (s.cursor.placeAfter (ds.take n))) →
      (cursorMachine config).Always (fun _ => True)
        (fun s d s' => (∀ w ∈ (s.cursor.mouseObserver d).2,
            (config.pixelAt w.x w.y).toNat + 3 < config.size) ∧
          ∀ i, config.size ≤ i → s'.frameBuffer i = s.frameBuffer i) s ds) := by
  have hinv : ∀ s : MouseScreen, config.Fits (s.cursor.placeAfter []) → True :=
    fun _ _ => trivial
  have hkeep : ∀ (s : MouseScreen) (d : Int8 × Int8), config.Fits (s.cursor.placeAfter []) →
      config.Fits (s.cursor.placeAfter [d]) →
      config.Fits ((s.report config d).cursor.placeAfter []) := by
    intro s d hs hok
    exact (s.cursor.placeAfter_mouseObserver hs (.inr hok) []).symm ▸ hok
  rw [← allSteps_fits_iff hfits]
  constructor
  · refine Machine.always_iff hinv ?_ ?_ hfits
      (Machine.AllSteps.of_mem fun _ _ _ => trivial)
    · intro s d hs _ hok
      exact ⟨s.report config d, rfl, (mouseObserver_onScreen_iff hs d).mpr hok, hkeep s d hs hok⟩
    · intro s d s' hs _ hnot _ hw
      exact absurd ((mouseObserver_onScreen_iff hs d).mp hw) hnot
  · intro hline
    refine Machine.always_of_inv hinv ?_ hfits
    intro s d hs hok
    have hw := (mouseObserver_onScreen_iff hs d).mpr hok
    refine ⟨s.report config d, rfl, ⟨?_, ?_⟩, hkeep s d hs hok⟩
    · intro w hmem
      exact FrameBufferConfig.pixelAt_lt hline (hw w hmem)
    · intro i hi
      dsimp only [MouseScreen.report]
      exact FrameBufferConfig.foldl_write_inside hline hw s.frameBuffer hi

/-- A screen of 1920 × 1080. -/
def fullHd : FrameBufferConfig := ⟨1920, 1920, 1080, .kPixelBGRResv8BitPerColor⟩

/-- The cursor as `main.cpp` makes it, on a screen of `config`. -/
def mouseStart (config : FrameBufferConfig) : MouseScreen :=
  mouseCursor config (fun _ => 0) ⟨45, 118, 237⟩ ⟨600, 800⟩

/-- The cursor goes down to the last rows and back to where it was. -/
theorem mouse_inside_down_up : fullHd.Fits ((mouseStart fullHd).cursor.placeAfter []) ∧
    (cursorMachine fullHd).Always (fun _ => True)
      (fun s d _ => ∀ w ∈ (s.cursor.mouseObserver d).2, fullHd.OnScreen w) (mouseStart fullHd)
      [(0, 127), (0, 127), (5, -128), (-5, -126)] := by
  have hfits : fullHd.Fits ((mouseStart fullHd).cursor.placeAfter []) := by decide +kernel
  exact ⟨hfits, (mouse_inside_iff fullHd hfits _).1.mpr (by decide +kernel)⟩

/-- A third report of this kind: the cursor is drawn below the screen, and behind the frame
buffer. -/
theorem mouse_below_screen : fullHd.Fits ((mouseStart fullHd).cursor.placeAfter []) ∧
    ¬ (cursorMachine fullHd).Always (fun _ => True)
      (fun s d _ => ∀ w ∈ (s.cursor.mouseObserver d).2, fullHd.OnScreen w) (mouseStart fullHd)
      [(0, 127), (0, 127), (0, 127)] ∧
    ∃ s, (cursorMachine fullHd).run (mouseStart fullHd) [(0, 127), (0, 127)] = some s ∧
      ⟨600, 1181, ⟨0, 0, 0⟩⟩ ∈ (s.cursor.mouseObserver (0, 127)).2 ∧
      fullHd.size ≤ (fullHd.pixelAt 600 1181).toNat := by
  have hdrawn : ⟨600, 1181, ⟨0, 0, 0⟩⟩ ∈ drawMouseCursor ⟨600, 1181⟩ :=
    mem_drawMouseCursor 0 0 (by decide) (by decide) rfl ⟨600, 1181⟩
  refine ⟨by decide +kernel, ?_, _, rfl, List.mem_append_right _ hdrawn, by decide +kernel⟩
  rintro ⟨-, s₁, h₁, -, -, s₂, h₂, -, -, s₃, h₃, hw, -⟩
  cases h₁
  cases h₂
  have hon := hw ⟨600, 1181, ⟨0, 0, 0⟩⟩ (List.mem_append_right _ hdrawn)
  exact absurd hon.2.2 (by decide +kernel)

end UnagiOs
