/-!
# FIFO32 (util/fifo.c)

A ring buffer of 32-bit integers. A `FIFO32 *` may be `NULL`, which is `none`
here, and a zeroed FIFO has no buffer yet. Reading from a FIFO that claims to
hold data but has no buffer answers `none` for the whole call.
-/

namespace UnagiOs

/-- `EIO`. -/
def eio : Int := 1

/-- `FIFO32`. The flags, which no function uses, are left out. -/
structure FIFO32 where
  buf : Option (Nat → Int)
  buflen : Nat
  free : Nat
  nextR : Nat
  nextW : Nat

/-- A zeroed `FIFO32`. -/
def fifo32Zero : FIFO32 := ⟨none, 0, 0, 0, 0⟩

/-- `fifo32_init`. -/
def fifo32Init (fifo : FIFO32) (buf : Option (Nat → Int)) (buflen : Nat) : FIFO32 :=
  match buf with
  | none => fifo
  | some b => { buf := some b, buflen := buflen, free := buflen, nextR := 0, nextW := 0 }

/-- `fifo32_enqueue`. -/
def fifo32Enqueue (fifo : FIFO32) (data : Int) : FIFO32 × Int :=
  match fifo.buf with
  | none => (fifo, -eio)
  | some buf =>
    if fifo.free = 0 then (fifo, -eio)
    else
      let nextW := fifo.nextW + 1
      ({ fifo with
          buf := some fun i => if i = fifo.nextW then data else buf i
          nextW := if nextW = fifo.buflen then 0 else nextW
          free := fifo.free - 1 }, 0)

/-- `fifo32_dequeue`. -/
def fifo32Dequeue (fifo : FIFO32) : Option (FIFO32 × Int) :=
  if fifo.free = fifo.buflen then some (fifo, -eio)
  else
    match fifo.buf with
    | none => none
    | some buf =>
      let nextR := fifo.nextR + 1
      some ({ fifo with
        nextR := if nextR = fifo.buflen then 0 else nextR
        free := fifo.free + 1 }, buf fifo.nextR)

/-- `fifo32_peek`. -/
def fifo32Peek (fifo : FIFO32) : Option Int :=
  if fifo.free = fifo.buflen then some (-eio)
  else fifo.buf.map fun buf => buf fifo.nextR

/-- `fifo32_status_getUsageB`. -/
def fifo32StatusGetUsageB (fifo : FIFO32) : Int := fifo.buflen - fifo.free

/-- A FIFO without a buffer is empty. -/
def FIFO32.Sane (fifo : FIFO32) : Prop := fifo.buf = none → fifo.free = fifo.buflen

namespace FIFO32

variable {fifo : FIFO32}

theorem Sane.zero : fifo32Zero.Sane := fun _ => rfl

theorem Sane.init (h : fifo.Sane) (buf : Option (Nat → Int)) (buflen : Nat) :
    (fifo32Init fifo buf buflen).Sane := by
  cases buf with
  | none => exact h
  | some b => exact fun hb => nomatch hb

theorem Sane.enqueue (h : fifo.Sane) (data : Int) : (fifo32Enqueue fifo data).1.Sane := by
  unfold fifo32Enqueue
  split
  next => exact h
  next =>
    split
    · exact h
    · exact fun hb => nomatch hb

/-- A sane FIFO can be read. -/
theorem Sane.dequeue (h : fifo.Sane) :
    ∃ fifo' data, fifo32Dequeue fifo = some (fifo', data) ∧ fifo'.Sane := by
  unfold fifo32Dequeue
  split
  next => exact ⟨fifo, -eio, rfl, h⟩
  next hfree =>
    split
    next hb => exact absurd (h hb) hfree
    next buf hb => exact ⟨_, _, rfl, fun hb' => nomatch hb.symm.trans hb'⟩

end FIFO32

end UnagiOs
