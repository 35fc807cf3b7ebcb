import UnagiOs.Kernel.Wakeup
import UnagiOs.Theory.Conveyor
import UnagiOs.Util.QueueRefine

/-!
# Keys on their way to the console (kernel.c)

`int21h` puts a key into the FIFO of the keyboard and the mouse, `eventloop` takes it from there and
puts it into the FIFO of the console, and `console_main` takes it from there. Interrupts, task
switches and the sections of the tasks come in any order. Timers put their data into the FIFO of the
console, too.

`keys_in_order`: whatever the order, the console gets its keys in the order in which they were
pressed, and none twice. No key is lost exactly if there is room in the first FIFO when one is
pressed and, when `eventloop` takes one, the console has the focus, its loop has started and there
is room in its FIFO.
-/

namespace UnagiOs

open List

/-! ## What a FIFO holds -/

namespace FIFO32

/-- The elements, the oldest one first. -/
def contents (fifo : FIFO32) : List Int :=
  match fifo.buf with
  | none => []
  | some buf =>
    (List.range (fifo.buflen - fifo.free)).map fun j => buf ((fifo.nextR + j) % fifo.buflen)

variable {cap : Nat} {fifo : FIFO32} {l : List Int} {x : Int}

theorem Holds.contents (h : Holds cap fifo l) : fifo.contents = l := by
  obtain ⟨c, b, h⟩ := h
  have hcount : fifo.buflen - fifo.free = l.length := by
    rw [h.buflen, ← h.free, Nat.add_sub_cancel_left]
  rw [FIFO32.contents, h.buf]
  dsimp only
  rw [hcount, h.nextR, h.buflen]
  refine ext_getElem (by simp) fun j hj hj' => ?_
  rw [getElem_map, getElem_range, Nat.mod_add_mod]
  exact h.data.holds j _ (getElem?_eq_getElem hj')

theorem Holds.enqueue (h : Holds cap fifo l) (x : Int) :
    Holds cap (fifo32Enqueue fifo x).1 (if l.length = cap then l else l ++ [x]) := by
  obtain ⟨c, b, h⟩ := h
  by_cases hfull : l.length = cap
  · rw [if_pos hfull, h.enqueue_full hfull]
    exact ⟨c, b, h⟩
  · obtain ⟨b', fifo', heq, h'⟩ := h.enqueue_room hfull x
    rw [if_neg hfull, heq]
    exact ⟨c, b', h'⟩

theorem Holds.dequeue_cons (h : Holds cap fifo (x :: l)) :
    ∃ fifo', fifo32Dequeue fifo = some (fifo', x) ∧ Holds cap fifo' l := by
  obtain ⟨c, b, h⟩ := h
  obtain ⟨fifo', heq, h'⟩ := h.dequeue_cons
  exact ⟨fifo', heq, c + 1, b, h'⟩

theorem Holds.dequeue_nil (h : Holds cap fifo []) : fifo32Dequeue fifo = some (fifo, -eio) := by
  obtain ⟨c, b, h⟩ := h
  exact h.dequeue_empty

theorem Holds.usage (h : Holds cap fifo l) : fifo32StatusGetUsageB fifo = l.length := by
  obtain ⟨c, b, h⟩ := h
  exact h.usage

theorem Holds.fits (h : Holds cap fifo l) : l.length ≤ cap := by
  obtain ⟨c, b, h⟩ := h
  exact h.data.fits

end FIFO32

/-! ## Keys -/

/-- The data that `int21h` enqueues. -/
def isKey (data : Int) : Bool := decide (devFifoKbdStart ≤ data ∧ data < devFifoKbdEnd)

/-- Only keys and mouse data come from the keyboard controller; timers send other data. -/
def KernelOp.FromDevices : KernelOp → Prop
  | .irq .console data => isKey data = false
  | _ => True

/-- The key that is pressed. -/
def KernelOp.pressed : KernelOp → List Int
  | .irq .keymouse data => [data].filter isKey
  | _ => []

namespace Kernel

/-- What one of the FIFOs holds. -/
def contents (k : Kernel) (i : FifoId) : List Int := (k.fifo i).elim [] fun f => f.fifo32.contents

/-- The keys on their way. -/
def keys (k : Kernel) : List Int := (k.contents .console ++ k.contents .keymouse).filter isKey

/-- The key that `console_main` takes. -/
def received (k : Kernel) : KernelOp → List Int
  | .execute _ =>
    if k.cpu.tr = k.taskConsole ∧ k.phaseConsole = .loop then
      ((k.dequeue .console).elim [] fun r => [r.2]).filter isKey
    else []
  | _ => []

/-- `eventloop` gets as far as the keyboard and mouse in its section. -/
def ReachesKeymouse (k : Kernel) : Prop :=
  k.usage .keymouse ≠ 0 ∧
    (k.usage .tss3 = 0 ∨ ∃ r, k.dequeue .tss3 = some r ∧ 0 ≤ r.2)

/-- A key that is pressed finds room, and so does one that `eventloop` takes. -/
def KeepsKeys (k : Kernel) : KernelOp → Prop
  | .irq .keymouse data => isKey data = true → k.usage .keymouse < 512
  | .execute focus => k.cpu.tr = k.task3 → k.phase3 = .loop → k.ReachesKeymouse →
      ∀ r, k.dequeue .keymouse = some r → isKey r.2 = true →
        focus = true ∧ k.phaseConsole = .loop ∧ k.usage .console < 512
  | _ => True

instance ReachesKeymouse.decidable {k : Kernel} : Decidable k.ReachesKeymouse :=
  inferInstanceAs (Decidable (_ ∧ (_ ∨ _)))

instance KeepsKeys.decidable {k : Kernel} : ∀ op, Decidable (k.KeepsKeys op)
  | .irq .keymouse _ => inferInstanceAs (Decidable (_ → _))
  | .irq .tss3 _ | .irq .tss4 _ | .irq .console _ | .tick => inferInstanceAs (Decidable True)
  | .execute focus => by
    rw [KeepsKeys]
    exact inferInstance

/-- What the FIFO of the console holds, which is there when its loop has started. -/
def HoldsConsole : Phase → Option MPFIFO32 → List Int → Prop
  | .entry, fifo, second => fifo = none ∧ second = []
  | .setup, fifo, second => fifo = some mpfifo32Zero ∧ second = []
  | .loop, fifo, second => ∃ f, fifo = some f ∧ f.fifo32.Holds 512 second

/-- The two FIFOs hold these data. -/
structure Queues (k : Kernel) (first second : List Int) : Prop where
  keymouse : ∃ f, k.fifo .keymouse = some f ∧ f.fifo32.Holds 512 first
  console : HoldsConsole k.phaseConsole (k.fifo .console) second

/-- What `Queues` is about is the same. -/
structure SameQueues (k' k : Kernel) : Prop where
  keymouse : k'.fifo .keymouse = k.fifo .keymouse
  console : k'.fifo .console = k.fifo .console
  phase : k'.phaseConsole = k.phaseConsole

namespace Queues

variable {k k' : Kernel} {first second : List Int} {data : Int} (h : k.Queues first second)
include h

theorem congr (hsame : k'.SameQueues k) : k'.Queues first second := by
  refine ⟨hsame.keymouse ▸ h.keymouse, ?_⟩
  rw [hsame.phase, hsame.console]
  exact h.console

theorem loop (hloop : k.phaseConsole = .loop) :
    ∃ f, k.fifo .console = some f ∧ f.fifo32.Holds 512 second := by
  have hconsole := h.console
  rwa [hloop] at hconsole

theorem usage_keymouse : k.usage .keymouse = first.length := by
  obtain ⟨f, hf, hholds⟩ := h.keymouse
  rw [usage, hf]
  exact hholds.usage

theorem usage_console (hloop : k.phaseConsole = .loop) : k.usage .console = second.length := by
  obtain ⟨f, hf, hholds⟩ := h.loop hloop
  rw [usage, hf]
  exact hholds.usage

theorem keys_eq : k.keys = (second ++ first).filter isKey := by
  have hfirst : k.contents .keymouse = first := by
    obtain ⟨f, hf, hholds⟩ := h.keymouse
    rw [contents, hf]
    exact hholds.contents
  have hsecond : k.contents .console = second := by
    have hconsole := h.console
    rw [contents]
    cases hphase : k.phaseConsole with
    | entry | setup =>
      rw [hphase] at hconsole
      rw [hconsole.1, hconsole.2]
      rfl
    | loop =>
      obtain ⟨f, hf, hholds⟩ := h.loop hphase
      rw [hf]
      exact hholds.contents
  rw [keys, hfirst, hsecond]

end Queues

/-! ## Calls -/

section Calls

variable {k k' : Kernel} {i : FifoId} {data : Int}

/-- `mpfifo32_enqueue` may wake a task, but of the FIFOs it changes one. -/
theorem enqueue_frame (h : k.enqueue i data = some k') :
    k'.phaseConsole = k.phaseConsole ∧ ∀ j, k'.fifo j = if j = i then
      (k.fifo i).map fun f => { f with fifo32 := (fifo32Enqueue f.fifo32 data).1 }
      else k.fifo j := by
  obtain ⟨r, hr, rfl⟩ := Option.map_eq_some_iff.mp h
  refine ⟨rfl, fun j => ?_⟩
  show (if j = i then r.2.1 else k.fifo j) = _
  refine if_congr Iff.rfl ?_ rfl
  cases hf : k.fifo i with
  | none =>
    rw [hf] at hr
    obtain rfl := Option.some.inj hr
    rfl
  | some f =>
    rw [hf, mpfifo32Enqueue] at hr
    dsimp only at hr
    split at hr
    · obtain rfl := Option.some.inj hr
      rfl
    · split at hr
      · obtain ⟨c, -, rfl⟩ := Option.map_eq_some_iff.mp hr
        rfl
      · obtain rfl := Option.some.inj hr
        rfl

theorem dequeue_frame {r : Kernel × Int} (h : k.dequeue i = some r) :
    r.1.phaseConsole = k.phaseConsole ∧ ∀ j, j ≠ i → r.1.fifo j = k.fifo j := by
  obtain ⟨q, -, rfl⟩ := Option.map_eq_some_iff.mp h
  exact ⟨rfl, fun j hj => if_neg hj⟩

theorem SameQueues.dequeue {r : Kernel × Int} (h : k.dequeue i = some r) (hi : i ≠ .keymouse)
    (hi' : i ≠ .console) : r.1.SameQueues k := by
  obtain ⟨hphase, hfifo⟩ := dequeue_frame h
  exact ⟨hfifo _ hi.symm, hfifo _ hi'.symm, hphase⟩

theorem SameQueues.sleep {t : Option TaskId} (h : k.sleep t = some k') : k'.SameQueues k := by
  obtain ⟨cpu, -, rfl⟩ := Option.map_eq_some_iff.mp h
  exact ⟨rfl, rfl, rfl⟩

/-- The loop of `eventloop` gets as far as the keyboard and the mouse, or it leaves the two FIFOs
alone. -/
theorem eventloopSection_loop {focus : Bool} (hphase : k.phase3 = .loop)
    (husage : 0 ≤ k.usage .keymouse) (hk : k.eventloopSection focus = some k') :
    (¬ k.ReachesKeymouse ∧ k'.SameQueues k) ∨
      (k.ReachesKeymouse ∧
        ∃ k₁ : Kernel, k₁.SameQueues k ∧ k₁.keymouseSection focus = some k') := by
  rw [eventloopSection, hphase] at hk
  dsimp only at hk
  split at hk
  next hidle =>
    exact Or.inl ⟨fun hr => hr.1 (Int.le_antisymm hidle.2 husage), SameQueues.sleep hk⟩
  split at hk
  next hempty =>
    split at hk
    next hzero =>
      obtain rfl := Option.some.inj hk
      exact Or.inl ⟨fun hr => hr.1 hzero, rfl, rfl, rfl⟩
    next hpos => exact Or.inr ⟨⟨hpos, Or.inl hempty⟩, k, ⟨rfl, rfl, rfl⟩, hk⟩
  next hfull =>
    cases hdeq : k.dequeue .tss3 with
    | none =>
      rw [hdeq] at hk
      nomatch hk
    | some r =>
      rw [hdeq] at hk
      dsimp only at hk
      have hsame := SameQueues.dequeue hdeq FifoId.noConfusion FifoId.noConfusion
      split at hk
      next hneg =>
        obtain rfl := Option.some.inj hk
        refine Or.inl ⟨fun hr => ?_, hsame⟩
        rcases hr.2 with hzero | ⟨r', hr', hge⟩
        · exact hfull hzero
        · obtain rfl := Option.some.inj (hdeq.symm.trans hr')
          omega
      next hge =>
        split at hk
        next hzero =>
          obtain rfl := Option.some.inj hk
          exact Or.inl ⟨fun hr => hr.1 hzero, hsame⟩
        next hpos =>
          exact Or.inr ⟨⟨hpos, Or.inr ⟨r, hdeq, Int.not_lt.mp hge⟩⟩, r.1, hsame, hk⟩

end Calls

namespace Queues

variable {k k' : Kernel} {first second : List Int} {data x : Int} {focus : Bool}

theorem enqueue_keymouse (h : k.Queues first second) (hk : k.enqueue .keymouse data = some k') :
    k'.Queues (if first.length = 512 then first else first ++ [data]) second := by
  obtain ⟨hphase, hfifo⟩ := enqueue_frame hk
  have hconsole : k'.fifo .console = k.fifo .console := hfifo .console
  obtain ⟨f, hf, hholds⟩ := h.keymouse
  have hkeymouse : k'.fifo .keymouse =
      some { f with fifo32 := (fifo32Enqueue f.fifo32 data).1 } := by
    rw [hfifo .keymouse, if_pos rfl, hf]
    rfl
  refine ⟨⟨_, hkeymouse, hholds.enqueue data⟩, ?_⟩
  rw [hphase, hconsole]
  exact h.console

/-- Before its loop, the console does not take anything. -/
theorem enqueue_console (h : k.Queues first second) (hk : k.enqueue .console data = some k') :
    k'.Queues first
      (if k.phaseConsole = .loop ∧ second.length < 512 then second ++ [data] else second) := by
  obtain ⟨hphase, hfifo⟩ := enqueue_frame hk
  have hkeymouse : k'.fifo .keymouse = k.fifo .keymouse := hfifo .keymouse
  have hconsole : k'.fifo .console =
      (k.fifo .console).map fun f => { f with fifo32 := (fifo32Enqueue f.fifo32 data).1 } :=
    hfifo .console
  have hold := h.console
  refine ⟨hkeymouse ▸ h.keymouse, ?_⟩
  rw [hphase, hconsole]
  cases hl : k.phaseConsole with
  | entry | setup =>
    rw [hl] at hold
    rw [hold.1, if_neg fun hc => Phase.noConfusion hc.1]
    exact ⟨rfl, hold.2⟩
  | loop =>
    obtain ⟨f, hf, hholds⟩ := h.loop hl
    have hfits := hholds.fits
    have henqueue := hholds.enqueue data
    rw [hf]
    refine ⟨_, rfl, ?_⟩
    by_cases hroom : second.length < 512
    · rw [if_pos ⟨rfl, hroom⟩]
      rwa [if_neg (Nat.ne_of_lt hroom)] at henqueue
    · rw [if_neg fun hc => hroom hc.2]
      rwa [if_pos (Nat.le_antisymm hfits (Nat.not_lt.mp hroom))] at henqueue

theorem dequeue_keymouse (h : k.Queues (x :: first) second) :
    ∃ k', k.dequeue .keymouse = some (k', x) ∧ k'.Queues first second := by
  obtain ⟨f, hf, hholds⟩ := h.keymouse
  obtain ⟨fifo', hdeq, hholds'⟩ := hholds.dequeue_cons
  refine ⟨k.setFifo .keymouse (some { f with fifo32 := fifo' }), ?_, ?_⟩
  · rw [dequeue, hf, mpfifo32Dequeue, hdeq]
    rfl
  · exact ⟨⟨_, rfl, hholds'⟩, h.console⟩

theorem dequeue_console (h : k.Queues first (x :: second)) (hloop : k.phaseConsole = .loop) :
    ∃ k', k.dequeue .console = some (k', x) ∧ k'.Queues first second := by
  obtain ⟨f, hf, hholds⟩ := h.loop hloop
  obtain ⟨fifo', hdeq, hholds'⟩ := hholds.dequeue_cons
  refine ⟨k.setFifo .console (some { f with fifo32 := fifo' }), ?_, ?_⟩
  · rw [dequeue, hf, mpfifo32Dequeue, hdeq]
    rfl
  · refine ⟨h.keymouse, ?_⟩
    show HoldsConsole k.phaseConsole _ second
    rw [hloop]
    exact ⟨_, rfl, hholds'⟩

theorem dequeue_console_nil (h : k.Queues first []) (hloop : k.phaseConsole = .loop) :
    ∃ k', k.dequeue .console = some (k', -eio) := by
  obtain ⟨f, hf, hholds⟩ := h.loop hloop
  rw [dequeue, hf, mpfifo32Dequeue, hholds.dequeue_nil]
  exact ⟨_, rfl⟩

/-- A key goes on to the console if that has the focus. -/
theorem keymouseSection (h : k.Queues (x :: first) second)
    (hk : k.keymouseSection focus = some k') :
    k'.Queues first (if isKey x = true ∧ focus = true ∧ k.phaseConsole = .loop ∧
      second.length < 512 then second ++ [x] else second) := by
  obtain ⟨k₁, hdeq, hq⟩ := h.dequeue_keymouse
  have hphase : k₁.phaseConsole = k.phaseConsole := (dequeue_frame hdeq).1
  rw [Kernel.keymouseSection, hdeq] at hk
  dsimp only at hk
  have hkey : isKey x = true ↔ devFifoKbdStart ≤ x ∧ x < devFifoKbdEnd := decide_eq_true_iff
  split at hk
  next hroute =>
    have hq' := hq.enqueue_console hk
    rw [hphase] at hq'
    have hcond : (isKey x = true ∧ focus = true ∧ k.phaseConsole = .loop ∧
        second.length < 512) ↔ (k.phaseConsole = .loop ∧ second.length < 512) :=
      ⟨fun hc => hc.2.2, fun hc => ⟨hkey.mpr ⟨hroute.1, hroute.2.1⟩, hroute.2.2, hc⟩⟩
    rwa [if_congr hcond rfl rfl]
  next hroute =>
    obtain rfl := Option.some.inj hk
    rw [if_neg fun hc => hroute ⟨(hkey.mp hc.1).1, (hkey.mp hc.1).2, hc.2.1⟩]
    exact hq

end Queues

/-! ## Steps -/

/-- What a step makes of the keys on their way. -/
def Moved (k : Kernel) (op : KernelOp) (l l' : List Int) : Prop :=
  List.Sublist (k.received op ++ l') (l ++ op.pressed) ∧
    (k.received op ++ l' = l ++ op.pressed ↔ k.KeepsKeys op)

section Steps

variable {k k' : Kernel} {op : KernelOp} {first second l l' : List Int} {data x : Int}
  {focus : Bool}

theorem Moved.kept (heq : k.received op ++ l' = l ++ op.pressed) (hkeeps : k.KeepsKeys op) :
    k.Moved op l l' :=
  ⟨heq ▸ List.Sublist.refl _, iff_of_true heq hkeeps⟩

theorem Moved.lost (hsub : List.Sublist (k.received op ++ l') (l ++ op.pressed))
    (hlt : (k.received op ++ l').length < (l ++ op.pressed).length)
    (hkeeps : ¬ k.KeepsKeys op) : k.Moved op l l' :=
  ⟨hsub, iff_of_false (fun heq => Nat.ne_of_lt hlt (congrArg List.length heq)) hkeeps⟩

/-- What the sections of one task and the interrupts for it come to. -/
def Moves (k k' : Kernel) (op : KernelOp) (first second : List Int) : Prop :=
  ∃ first' second', k'.Queues first' second' ∧
    k.Moved op ((second ++ first).filter isKey) ((second' ++ first').filter isKey)

/-- A step that leaves both FIFOs alone. -/
theorem Queues.stay (h : k'.Queues first second) (hreceived : k.received op = [])
    (hpressed : op.pressed = []) (hkeeps : k.KeepsKeys op) : k.Moves k' op first second := by
  refine ⟨first, second, h, Moved.kept ?_ hkeeps⟩
  rw [hreceived, hpressed, append_nil]
  rfl

/-- An interrupt puts its datum last, or drops it if the FIFO is full. -/
theorem Queues.irq_keymouse (h : k.Queues first second)
    (hk : k.enqueue .keymouse data = some k') :
    k.Moves k' (.irq .keymouse data) first second := by
  have husage := h.usage_keymouse
  refine ⟨_, _, h.enqueue_keymouse hk, ?_⟩
  by_cases hfull : first.length = 512
  · rw [if_pos hfull]
    by_cases hkey : isKey data = true
    · have hpressed : KernelOp.pressed (.irq .keymouse data) = [data] :=
        filter_cons_of_pos hkey
      refine Moved.lost ?_ ?_ fun hkeeps => ?_
      · exact sublist_append_left _ _
      · show (List.filter isKey (second ++ first)).length < _
        rw [hpressed, length_append]
        exact Nat.lt_succ_self _
      · have hlt := hkeeps hkey
        omega
    · refine Moved.kept ?_ fun hk => absurd hk hkey
      show List.filter isKey _ = _ ++ List.filter isKey [data]
      rw [filter_cons_of_neg hkey, filter_nil, append_nil]
  · rw [if_neg hfull]
    refine Moved.kept ?_ fun _ => ?_
    · show List.filter isKey _ = _ ++ List.filter isKey [data]
      rw [← append_assoc, filter_append]
    · obtain ⟨f, -, hholds⟩ := h.keymouse
      have hfits := hholds.fits
      omega

theorem Queues.irq_console (h : k.Queues first second) (hdata : isKey data = false)
    (hk : k.enqueue .console data = some k') :
    k.Moves k' (.irq .console data) first second := by
  refine ⟨_, _, h.enqueue_console hk, Moved.kept ?_ trivial⟩
  show List.filter isKey _ = _ ++ []
  rw [append_nil]
  split
  · rw [append_assoc, filter_append, singleton_append,
      filter_cons_of_neg (by rw [hdata]; exact Bool.false_ne_true), ← filter_append]
  · rfl

/-- The other FIFOs. -/
theorem Queues.irq_other (h : k.Queues first second) {i : FifoId} (hi : i ≠ .keymouse)
    (hi' : i ≠ .console) (hk : k.enqueue i data = some k') : k'.Queues first second := by
  obtain ⟨hphase, hfifo⟩ := enqueue_frame hk
  exact h.congr ⟨(hfifo _).trans (if_neg hi.symm), (hfifo _).trans (if_neg hi'.symm), hphase⟩

/-- `eventloop` takes a datum of the keyboard or the mouse. -/
theorem Queues.moves_keymouseSection {k₁ : Kernel} (h : k₁.Queues (x :: first) second)
    (hphase : k₁.phaseConsole = k.phaseConsole) (hk : k₁.keymouseSection focus = some k')
    (hreceived : k.received (.execute focus) = [])
    (hkeeps : k.KeepsKeys (.execute focus) ↔ (isKey x = true →
      focus = true ∧ k.phaseConsole = .loop ∧ second.length < 512)) :
    k.Moves k' (.execute focus) (x :: first) second := by
  refine ⟨_, _, h.keymouseSection hk, ?_⟩
  rw [hphase]
  have hpressed : KernelOp.pressed (.execute focus) = [] := rfl
  by_cases hkey : isKey x = true
  · have hline : (second ++ x :: first).filter isKey =
        second.filter isKey ++ x :: first.filter isKey := by
      rw [filter_append, filter_cons_of_pos hkey]
    by_cases hroute : focus = true ∧ k.phaseConsole = .loop ∧ second.length < 512
    · rw [if_pos ⟨hkey, hroute⟩]
      refine Moved.kept ?_ (hkeeps.mpr fun _ => hroute)
      rw [hreceived, hpressed, append_nil, nil_append, append_assoc,
        singleton_append]
    · rw [if_neg fun hc => hroute hc.2]
      refine Moved.lost ?_ ?_ fun hc => hroute (hkeeps.mp hc hkey)
      · rw [hreceived, hpressed, append_nil, nil_append]
        exact ((sublist_cons_self x first).append_left second).filter isKey
      · rw [hreceived, hpressed, append_nil, nil_append, hline, filter_append,
          length_append, length_append, length_cons]
        omega
  · rw [if_neg fun hc => hkey hc.1]
    refine Moved.kept ?_ (hkeeps.mpr fun hc => absurd hc hkey)
    rw [hreceived, hpressed, append_nil, nil_append, filter_append,
      filter_append, filter_cons_of_neg hkey]

/-- The event loop takes the first datum, and hands a key on to the console. -/
theorem Queues.eventloopSection (h : k.Queues first second) (htr : k.cpu.tr = k.task3)
    (hreceived : k.received (.execute focus) = []) (hk : k.eventloopSection focus = some k') :
    k.Moves k' (.execute focus) first second := by
  have husage := h.usage_keymouse
  -- a section that does not come to the queue of the devices drops nothing
  have hnever : ¬ (k.phase3 = .loop ∧ k.ReachesKeymouse) → k.KeepsKeys (.execute focus) :=
    fun hn _ hloop hreaches => absurd ⟨hloop, hreaches⟩ hn
  cases hphase : k.phase3 with
  | entry =>
    rw [Kernel.eventloopSection, hphase] at hk
    obtain rfl := Option.some.inj hk
    refine Queues.stay ⟨?_, h.console⟩ hreceived rfl (hnever ?_)
    · obtain ⟨f, hf, hholds⟩ := h.keymouse
      refine ⟨{ f with task := k.task3 }, ?_, hholds⟩
      show (k.fifo .keymouse).map _ = _
      rw [hf]
      rfl
    · rw [hphase]
      exact fun hc => Phase.noConfusion hc.1
  | setup =>
    rw [Kernel.eventloopSection, hphase] at hk
    obtain rfl := Option.some.inj hk
    refine Queues.stay (h.congr ⟨rfl, rfl, rfl⟩) hreceived rfl (hnever ?_)
    rw [hphase]
    exact fun hc => Phase.noConfusion hc.1
  | loop =>
    rcases eventloopSection_loop hphase (by rw [husage]; exact Int.natCast_nonneg _) hk with
      ⟨hnot, hsame⟩ | ⟨hreaches, k₁, hsame, hk⟩
    · exact Queues.stay (h.congr hsame) hreceived rfl (hnever fun hc => hnot hc.2)
    cases first with
    | nil => exact absurd husage hreaches.1
    | cons x first =>
      obtain ⟨k₂, hx, -⟩ := h.dequeue_keymouse
      have hroom : k.phaseConsole = .loop → (k.usage .console < 512 ↔ second.length < 512) := by
        intro hl
        rw [h.usage_console hl]
        exact Int.ofNat_lt
      refine (h.congr hsame).moves_keymouseSection hsame.phase hk hreceived ⟨?_, ?_⟩
      · intro hc hkey
        obtain ⟨hf, hl, hu⟩ := hc htr hphase hreaches _ hx hkey
        exact ⟨hf, hl, (hroom hl).mp hu⟩
      · intro hc _ _ _ r hr hkey
        obtain rfl := Option.some.inj (hx.symm.trans hr)
        obtain ⟨hf, hl, hu⟩ := hc hkey
        exact ⟨hf, hl, (hroom hl).mpr hu⟩

theorem Queues.tss4Section (h : k.Queues first second) (hk : k.tss4Section = some k') :
    k'.Queues first second := by
  rw [Kernel.tss4Section] at hk
  cases hphase : k.phase4 with
  | entry | setup =>
    rw [hphase] at hk
    obtain rfl := Option.some.inj hk
    exact h.congr ⟨rfl, rfl, rfl⟩
  | loop =>
    rw [hphase] at hk
    dsimp only at hk
    split at hk
    · exact h.congr (SameQueues.sleep hk)
    · obtain ⟨r, hdeq, rfl⟩ := Option.map_eq_some_iff.mp hk
      exact h.congr (SameQueues.dequeue hdeq FifoId.noConfusion FifoId.noConfusion)

/-- The console sets its FIFO up, and from then on takes the first datum. -/
theorem Queues.consoleSection (h : k.Queues first second) (htr : k.cpu.tr = k.taskConsole)
    (hkeeps : k.KeepsKeys (.execute focus)) (hk : k.consoleSection = some k') :
    k.Moves k' (.execute focus) first second := by
  have hquiet : k.phaseConsole ≠ .loop → k.received (.execute focus) = [] :=
    fun hne => if_neg fun hc => hne hc.2
  have hconsole := h.console
  rw [Kernel.consoleSection] at hk
  cases hphase : k.phaseConsole with
  | entry =>
    rw [hphase] at hk
    obtain rfl := Option.some.inj hk
    rw [hphase] at hconsole
    exact Queues.stay ⟨h.keymouse, rfl, hconsole.2⟩
      (hquiet (by rw [hphase]; exact Phase.noConfusion)) rfl hkeeps
  | setup =>
    rw [hphase] at hk
    obtain rfl := Option.some.inj hk
    rw [hphase] at hconsole
    obtain ⟨hf, rfl⟩ := hconsole
    refine Queues.stay ⟨h.keymouse, ⟨fifo32Init fifo32Zero (some fun _ => 0) 512, k.task⟩, ?_,
        0, fun _ => 0, FIFO32.Repr.start fifo32Zero fun _ => 0⟩
      (hquiet (by rw [hphase]; exact Phase.noConfusion)) rfl hkeeps
    show mpfifo32Init (k.fifo .console) _ _ _ = _
    rw [hf]
    rfl
  | loop =>
    rw [hphase] at hk
    dsimp only at hk
    have hreceived : k.received (.execute focus) =
        ((k.dequeue .console).elim [] fun r => [r.2]).filter isKey := if_pos ⟨htr, hphase⟩
    cases second with
    | nil =>
      have hzero : k.usage .console = 0 := h.usage_console hphase
      rw [if_pos hzero] at hk
      obtain ⟨k₁, hnil⟩ := h.dequeue_console_nil hphase
      rw [hnil] at hreceived
      exact Queues.stay (h.congr (SameQueues.sleep hk)) hreceived rfl hkeeps
    | cons x second =>
      obtain ⟨k₁, hdeq, hq⟩ := h.dequeue_console hphase
      have hpos : ¬ k.usage .console = 0 := by
        rw [h.usage_console hphase, length_cons]
        exact Int.natCast_ne_zero.mpr (Nat.succ_ne_zero _)
      rw [if_neg hpos, hdeq] at hk
      obtain rfl := Option.some.inj hk
      refine ⟨_, _, hq, Moved.kept ?_ hkeeps⟩
      rw [hreceived, hdeq]
      show [x].filter isKey ++ _ = _ ++ []
      rw [append_nil, ← filter_append]
      rfl

/-- **Every step** keeps the keys in order. -/
theorem Queues.step (h : k.Queues first second) (hinv : KernelInv k) (hop : op.FromDevices)
    (hk : kernelMachine.step k op = some k') : k.Moves k' op first second := by
  cases op with
  | irq i data =>
    cases i with
    | keymouse => exact h.irq_keymouse hk
    | console => exact h.irq_console hop hk
    | tss3 =>
      exact Queues.stay (h.irq_other FifoId.noConfusion FifoId.noConfusion hk) rfl rfl trivial
    | tss4 =>
      exact Queues.stay (h.irq_other FifoId.noConfusion FifoId.noConfusion hk) rfl rfl trivial
  | tick =>
    have hk : (taskMachine.step k.cpu .autoswitch).map (fun cpu => { k with cpu := cpu }) =
      some k' := hk
    obtain ⟨cpu, -, rfl⟩ := Option.map_eq_some_iff.mp hk
    exact Queues.stay (h.congr ⟨rfl, rfl, rfl⟩) rfl rfl trivial
  | execute focus =>
    -- only the console's task takes keys from its queue
    have hquiet : k.cpu.tr ≠ k.taskConsole → k.received (.execute focus) = [] :=
      fun hne => if_neg fun hc => hne hc.1
    have hrest : k.cpu.tr ≠ k.task3 → k.KeepsKeys (.execute focus) :=
      fun hne htr => absurd htr hne
    have hk : k.execute focus = some k' := hk
    rw [Kernel.execute] at hk
    by_cases hnone : k.cpu.tr = none
    · rw [if_pos hnone] at hk
      obtain rfl := Option.some.inj hk
      refine h.stay (hquiet ?_) rfl (hrest ?_)
      · rw [hnone, hinv.taskConsole]
        exact (Option.some_ne_none _).symm
      · rw [hnone, hinv.task3]
        exact (Option.some_ne_none _).symm
    rw [if_neg hnone] at hk
    by_cases h3 : k.cpu.tr = k.task3
    · rw [if_pos h3] at hk
      refine h.eventloopSection h3 (hquiet ?_) hk
      rw [h3, hinv.task3, hinv.taskConsole]
      decide
    rw [if_neg h3] at hk
    by_cases h4 : k.cpu.tr = k.task4
    · rw [if_pos h4] at hk
      refine Queues.stay (h.tss4Section hk) (hquiet ?_) rfl (hrest h3)
      rw [h4, hinv.task4, hinv.taskConsole]
      decide
    rw [if_neg h4] at hk
    by_cases hc : k.cpu.tr = k.taskConsole
    · rw [if_pos hc] at hk
      exact h.consoleSection hc (hrest h3) hk
    · rw [if_neg hc] at hk
      obtain rfl := Option.some.inj hk
      exact h.stay (hquiet hc) rfl (hrest h3)

end Steps

/-- The keys on their way, in a state that the kernel reaches. -/
def OnTheWay (k : Kernel) (l : List Int) : Prop :=
  KernelInv k ∧ ∃ first second, k.Queues first second ∧ l = (second ++ first).filter isKey

theorem OnTheWay.keys_eq {k : Kernel} {l : List Int} (h : k.OnTheWay l) : k.keys = l := by
  obtain ⟨-, first, second, hq, rfl⟩ := h
  exact hq.keys_eq

end Kernel

theorem kernel_conveys : kernelMachine.Conveys Kernel.OnTheWay KernelOp.pressed Kernel.received
    (fun _ op => op.FromDevices) Kernel.KeepsKeys := by
  refine ⟨?_⟩
  rintro k op l ⟨hinv, first, second, hq, rfl⟩ hop
  obtain ⟨k', hstep, hinv'⟩ := hinv.step op
  obtain ⟨first', second', hq', hsub, hkeeps⟩ := hq.step hinv hop hstep
  exact ⟨k', _, hstep, ⟨hinv', first', second', hq', rfl⟩, hsub, hkeeps⟩

/-- The keys that were pressed before the tasks started. -/
theorem holds_keymousefifo (early : List Int) :
    (keymousefifo early).fifo32.Holds 512 (early.take 512) := by
  have hfold : ∀ (early l : List Int) (f : FIFO32), f.Holds 512 l →
      (early.foldl (fun f data => (fifo32Enqueue f data).1) f).Holds 512
        (l ++ early.take (512 - l.length)) := by
    intro early
    induction early with
    | nil =>
      intro l f hf
      rwa [take_nil, append_nil]
    | cons data early ih =>
      intro l f hf
      have hfits := hf.fits
      have hnext := ih _ _ (hf.enqueue data)
      by_cases hfull : l.length = 512
      · rw [if_pos hfull, hfull] at hnext
        rw [hfull]
        exact hnext
      · rw [if_neg hfull, length_append, length_singleton, append_assoc,
          singleton_append] at hnext
        have hroom : 512 - l.length = 512 - (l.length + 1) + 1 := by omega
        rw [hroom, take_succ_cons]
        exact hnext
  exact hfold early [] _ ⟨0, fun _ => 0, FIFO32.Repr.start fifo32Zero fun _ => 0⟩

theorem kernelStart_onTheWay (early : List Int) :
    ∃ k₀, kernelStart early = some k₀ ∧ k₀.OnTheWay ((early.take 512).filter isKey) := by
  obtain ⟨k₀, hk₀, hinv⟩ := KernelInv.start early
  refine ⟨k₀, hk₀, hinv, early.take 512, [], ?_, rfl⟩
  obtain ⟨p, -, rfl⟩ := Option.map_eq_some_iff.mp hk₀
  exact ⟨⟨_, rfl, holds_keymousefifo early⟩, rfl, rfl⟩

/-- **Keys reach the console in order**, none twice, in every interleaving; and what exactly loses
one. -/
theorem keys_in_order (early : List Int) (ops : List KernelOp) (hops : ∀ op ∈ ops, op.FromDevices) :
    ∃ k₀ k, kernelStart early = some k₀ ∧ kernelMachine.run k₀ ops = some k ∧
      List.Sublist (kernelMachine.emitted Kernel.received k₀ ops ++ k.keys)
        ((early.take 512).filter isKey ++ ops.flatMap KernelOp.pressed) ∧
      (kernelMachine.emitted Kernel.received k₀ ops ++ k.keys =
          (early.take 512).filter isKey ++ ops.flatMap KernelOp.pressed ↔
        kernelMachine.AllSteps Kernel.KeepsKeys k₀ ops) := by
  obtain ⟨k₀, hk₀, hway⟩ := kernelStart_onTheWay early
  obtain ⟨k, l, hrun, hl, hsub, hkeeps⟩ := kernel_conveys.run hway
    (Machine.AllSteps.of_mem fun op hop _ => hops op hop)
  rw [← hl.keys_eq] at hsub hkeeps
  exact ⟨k₀, k, hk₀, hrun, hsub, hkeeps⟩

/-- The loops of the tasks start; then A is pressed, the mouse moves, B is pressed, and the tasks go
on. -/
def pressesAB : List KernelOp :=
  List.replicate 7 (.execute true) ++
    [.irq .keymouse 286, .irq .keymouse 520, .irq .keymouse 304, .tick] ++
    List.replicate 5 (.execute true)

/-- The console has got A, and B is on its way. -/
theorem keys_in_order_two : ∃ k₀ k, kernelStart [] = some k₀ ∧
    kernelMachine.run k₀ pressesAB = some k ∧
    kernelMachine.emitted Kernel.received k₀ pressesAB = [286] ∧ k.keys = [304] := by
  obtain ⟨k₀, k, hk₀, hrun, -, hall⟩ := keys_in_order [] pressesAB
    (by simp [pressesAB, KernelOp.FromDevices])
  have hkeeps : (kernelStart []).all fun k₀ =>
      decide (kernelMachine.AllSteps Kernel.KeepsKeys k₀ pressesAB) := by
    decide +kernel
  have hreceived : (kernelStart []).all fun k₀ =>
      decide (kernelMachine.emitted Kernel.received k₀ pressesAB = [286]) := by
    decide +kernel
  have hpressed : pressesAB.flatMap KernelOp.pressed = [286, 304] := by decide
  rw [hk₀, Option.all_some, decide_eq_true_eq] at hkeeps hreceived
  have hline := hall.mpr hkeeps
  rw [hreceived, hpressed] at hline
  exact ⟨k₀, k, hk₀, hrun, hreceived, append_cancel_left hline⟩

end UnagiOs
