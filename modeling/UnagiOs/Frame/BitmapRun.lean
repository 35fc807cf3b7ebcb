import Mathlib.Data.List.Perm.Basic
import UnagiOs.Theory.Machine
import UnagiOs.Frame.MemoryManager

/-!
# Histories of the frame bitmap

Callers mark frames, allocate blocks and free the blocks they hold. `Frames`
remembers what the bitmap itself does not tell apart: the live blocks, and the
frames that are set without belonging to one. A frame has one bit, so freeing a
block also forgets that some of its frames were marked.

`bits_exact` is the result: along every history the set bits are the marked
frames and the live blocks, and every `Allocate` answers with the lowest run or
says that there is none.
-/

namespace UnagiOs

open BitmapMemoryManager List

/-- `count` frames from `start` on. -/
structure FrameBlock where
  start : Nat
  count : Nat
  deriving DecidableEq, Repr

/-- The frames of a block. -/
def FrameBlock.Has (b : FrameBlock) (f : Nat) : Prop := b.start ≤ f ∧ f < b.start + b.count
  deriving Decidable

/-- The manager and what its callers know. -/
structure Frames where
  manager : BitmapMemoryManager
  /-- Frames that were marked and not freed since. -/
  marked : Nat → Bool
  /-- Blocks returned by `Allocate` and not freed yet. -/
  live : List FrameBlock

inductive FrameOp where
  | markAllocated (start n : Nat)
  | allocate (n : Nat)
  | free (start n : Nat)
  deriving DecidableEq, Repr

namespace Frames

/-- A manager before the first call; the bits that are set count as marked. -/
def start (m : BitmapMemoryManager) : Frames := ⟨m, m.bit, []⟩

def step (r : Frames) : FrameOp → Option Frames
  | .markAllocated start n =>
    (r.manager.markAllocated start n).toOption.map fun m =>
      { r with manager := m, marked := fill r.marked start n true }
  | .allocate n =>
    (r.manager.allocate n).toOption.map fun (m, ans) =>
      { r with manager := m
               live := if ans.error = .kSuccess then ⟨ans.value, n⟩ :: r.live else r.live }
  | .free start n =>
    (r.manager.free start n).toOption.map fun (m, _) =>
      { manager := m
        marked := fill r.marked start n false
        live := r.live.erase ⟨start, n⟩ }

/-- Frames of the map are marked, at least one frame is asked for, and what is
freed is a live block. -/
def Legal (r : Frames) : FrameOp → Prop
  | .markAllocated start n => FramesExist start n
  | .allocate n => 0 < n
  | .free start n => ⟨start, n⟩ ∈ r.live

instance decidableLegal (r : Frames) : ∀ op, Decidable (r.Legal op)
  | .markAllocated start n => inferInstanceAs (Decidable (FramesExist start n))
  | .allocate n => inferInstanceAs (Decidable (0 < n))
  | .free start n => inferInstanceAs (Decidable (⟨start, n⟩ ∈ r.live))

/-- Some live block has the frame. -/
def InLive (r : Frames) (f : Nat) : Prop := ∃ b ∈ r.live, b.Has f

/-- The set bits are the marked frames and the live blocks. -/
def BitsExact (r : Frames) : Prop :=
  ∀ f, r.manager.bit f = true ↔ r.marked f = true ∨ r.InLive f

/-- `Allocate` returns, with the lowest run of clear frames in the range if there
is one and otherwise with `kNoEnoughMemory`, the manager unchanged. -/
def Answers (r : Frames) : FrameOp → Prop
  | .allocate n => ∃ ans, r.manager.allocate n = .ok ans ∧ AllocateSpec r.manager n ans
  | _ => True

end Frames

/-- The frame bitmap and its callers. -/
def frameMachine : Machine Frames FrameOp := ⟨Frames.step⟩

/-! ## The steps -/

/-- What a call can do. -/
inductive FrameStep (r : Frames) : FrameOp → Frames → Prop
  | marked {m' : BitmapMemoryManager} {start n : Nat}
      (hm' : Rewritten r.manager m' (fill r.manager.bit start n true)) :
      FrameStep r (.markAllocated start n)
        { r with manager := m', marked := fill r.marked start n true }
  | allocated {m' : BitmapMemoryManager} {s n : Nat}
      (hleast : IsLeast {s | r.manager.ClearRun n s} s)
      (hm' : Rewritten r.manager m' (fill r.manager.bit s n true)) :
      FrameStep r (.allocate n) { r with manager := m', live := ⟨s, n⟩ :: r.live }
  | failed {n : Nat} (hnone : ¬ ∃ s, r.manager.ClearRun n s) : FrameStep r (.allocate n) r
  | freed {m' : BitmapMemoryManager} {start n : Nat} (hb : ⟨start, n⟩ ∈ r.live)
      (hm' : Rewritten r.manager m' (fill r.manager.bit start n false)) :
      FrameStep r (.free start n) ⟨m', fill r.marked start n false, r.live.erase ⟨start, n⟩⟩

/-- A legal call returns, and does one of these things. -/
theorem Frames.frameStep {r : Frames} (hmap : r.manager.rangeEnd ≤ kFrameCount)
    (hexist : ∀ b ∈ r.live, FramesExist b.start b.count) {op : FrameOp} (hlegal : r.Legal op) :
    ∃ r', frameMachine.step r op = some r' ∧ r.Answers op ∧ FrameStep r op r' := by
  cases op with
  | markAllocated start n =>
    obtain ⟨m', heq, hm'⟩ := setBits_spec (m := r.manager) (b := true) hlegal
    refine ⟨_, ?_, trivial, .marked hm'⟩
    simp only [frameMachine, Frames.step, markAllocated, heq, Except.toOption, Option.map_some]
  | allocate n =>
    obtain ⟨ans, heq, hans⟩ := allocate_spec hlegal hmap
    have hanswers : r.Answers (.allocate n) := ⟨ans, heq, hans⟩
    cases hans with
    | success hleast hm' =>
      refine ⟨_, ?_, hanswers, .allocated hleast hm'⟩
      simp only [frameMachine, Frames.step, heq, Except.toOption, Option.map_some, if_true]
    | failure hnone =>
      refine ⟨_, ?_, hanswers, .failed hnone⟩
      simp only [frameMachine, Frames.step, heq, Except.toOption, Option.map_some,
        reduceCtorEq, if_false]
  | free start n =>
    obtain ⟨m', heq, hm'⟩ := setBits_spec (m := r.manager) (b := false) (hexist _ hlegal)
    refine ⟨_, ?_, trivial, .freed hlegal hm'⟩
    simp only [frameMachine, Frames.step, free, heq, Except.toOption, Except.map, Option.map_some]

/-! ## The invariant -/

/-- What every history keeps, for managers with the range of `m`. -/
structure FramesInv (m : BitmapMemoryManager) (r : Frames) : Prop where
  bits : r.BitsExact
  disjoint : r.live.Pairwise fun a b => ∀ f, a.Has f → ¬ b.Has f
  exist : ∀ b ∈ r.live, FramesExist b.start b.count
  rangeBegin : r.manager.rangeBegin = m.rangeBegin
  rangeEnd : r.manager.rangeEnd = m.rangeEnd

namespace FramesInv

variable {m : BitmapMemoryManager} {r r' : Frames} {op : FrameOp}

theorem start (m : BitmapMemoryManager) : FramesInv m (Frames.start m) where
  bits f := by simp [Frames.start, Frames.InLive]
  disjoint := .nil
  exist _ hb := absurd hb not_mem_nil
  rangeBegin := rfl
  rangeEnd := rfl

/-- The other live blocks keep their frames. -/
theorem inLive_erase (hr : FramesInv m r) {b : FrameBlock} (hb : b ∈ r.live) {f : Nat} :
    (∃ c ∈ r.live.erase b, c.Has f) ↔ ¬ b.Has f ∧ r.InLive f := by
  have hperm := perm_cons_erase hb
  have hpw := (hperm.pairwise_iff fun hac f hc ha => hac f ha hc).mp hr.disjoint
  rw [pairwise_cons] at hpw
  constructor
  · rintro ⟨c, hc, hcf⟩
    exact ⟨fun hbf => hpw.1 c hc f hbf hcf, c, mem_of_mem_erase hc, hcf⟩
  · rintro ⟨hbf, c, hc, hcf⟩
    have hne : c ≠ b := fun h => hbf (h ▸ hcf)
    exact ⟨c, (mem_erase_of_ne hne).mpr hc, hcf⟩

theorem bits_step (hr : FramesInv m r) (hstep : FrameStep r op r') : r'.BitsExact := by
  intro f
  cases hstep with
  | marked hm' =>
    show _ ↔ fill r.marked _ _ true f = true ∨ r.InLive f
    rw [hm'.bit, fill_true_iff, fill_true_iff, hr.bits f, or_assoc]
  | @allocated m' s n hleast hm' =>
    show _ ↔ r.marked f = true ∨ ∃ b ∈ (⟨s, n⟩ : FrameBlock) :: r.live, b.Has f
    rw [hm'.bit, fill_true_iff, hr.bits f, exists_mem_cons_iff, or_left_comm]
    rfl
  | failed hnone => exact hr.bits f
  | @freed m' start n hb hm' =>
    show _ ↔ fill r.marked _ _ false f = true ∨ ∃ b ∈ r.live.erase ⟨start, n⟩, b.Has f
    rw [hm'.bit, fill_false_iff, fill_false_iff, hr.inLive_erase hb, hr.bits f, and_or_left]
    rfl

/-- A step keeps the blocks apart and the bitmap exact. -/
theorem frameStep (hr : FramesInv m r) (hmap : m.rangeEnd ≤ kFrameCount)
    (hstep : FrameStep r op r') : FramesInv m r' := by
  have hbits := hr.bits_step hstep
  cases hstep with
  | marked hm' =>
    exact ⟨hbits, hr.disjoint, hr.exist, hm'.rangeBegin.trans hr.rangeBegin,
      hm'.rangeEnd.trans hr.rangeEnd⟩
  | @allocated m' s n hleast hm' =>
    have hrun : IsRun r.manager.bit _ _ n s := hleast.1
    refine ⟨hbits, ?_, ?_, hm'.rangeBegin.trans hr.rangeBegin, hm'.rangeEnd.trans hr.rangeEnd⟩
    · -- the block is taken out of clear frames, so it meets no live block
      refine pairwise_cons.mpr ⟨fun b hb f hf hbf => ?_, hr.disjoint⟩
      have hset : r.manager.bit f = true := (hr.bits f).mpr (.inr ⟨b, hb, hbf⟩)
      rw [hrun.clear f hf.1 hf.2] at hset
      exact Bool.false_ne_true hset
    · refine forall_mem_cons.mpr ⟨.inr ?_, hr.exist⟩
      exact hrun.le_hi.trans (hr.rangeEnd ▸ hmap)
  | failed hnone => exact hr
  | freed hb hm' =>
    exact ⟨hbits, hr.disjoint.sublist erase_sublist,
      fun b hb => hr.exist b (mem_of_mem_erase hb), hm'.rangeBegin.trans hr.rangeBegin,
      hm'.rangeEnd.trans hr.rangeEnd⟩

theorem step (hr : FramesInv m r) (hmap : m.rangeEnd ≤ kFrameCount) (hlegal : r.Legal op) :
    ∃ r', frameMachine.step r op = some r' ∧ r.Answers op ∧ FramesInv m r' := by
  obtain ⟨r', heq, hans, hstep⟩ := r.frameStep (hr.rangeEnd ▸ hmap) hr.exist hlegal
  exact ⟨r', heq, hans, hr.frameStep hmap hstep⟩

end FramesInv

/-! ## Histories without marking -/

def FrameOp.NoMark : FrameOp → Prop
  | .markAllocated _ _ => False
  | _ => True

instance FrameOp.decidableNoMark : ∀ op, Decidable (FrameOp.NoMark op)
  | .markAllocated _ _ => isFalse id
  | .allocate _ => isTrue trivial
  | .free _ _ => isTrue trivial

/-- While nothing is marked, the callers hold frames that were clear at the start,
and the frames that were set at the start stay marked. -/
structure HandOutInv (m : BitmapMemoryManager) (r : Frames) : Prop extends FramesInv m r where
  marked : ∀ f, r.marked f = m.bit f
  fresh : ∀ f, r.InLive f → (m.rangeBegin ≤ f ∧ f < m.rangeEnd) ∧ m.bit f = false

namespace HandOutInv

variable {m : BitmapMemoryManager} {r r' : Frames} {op : FrameOp}

theorem start (m : BitmapMemoryManager) : HandOutInv m (Frames.start m) where
  toFramesInv := .start m
  marked _ := rfl
  fresh _ h := by simp [Frames.start, Frames.InLive] at h

/-- A step without marking hands out only what was clear at the start. -/
theorem frameStep (hr : HandOutInv m r) (hmap : m.rangeEnd ≤ kFrameCount) (hno : op.NoMark)
    (hstep : FrameStep r op r') : HandOutInv m r' := by
  refine ⟨hr.toFramesInv.frameStep hmap hstep, ?_, ?_⟩
  · cases hstep with
    | marked hm' => exact hno.elim
    | allocated hleast hm' => exact hr.marked
    | failed hnone => exact hr.marked
    | @freed m' start n hb hm' =>
      -- the frames of the freed block were clear at the start
      intro f
      show fill r.marked start n false f = m.bit f
      unfold fill
      split
      · next hf => exact (hr.fresh f ⟨_, hb, hf⟩).2.symm
      · exact hr.marked f
  · cases hstep with
    | marked hm' => exact hno.elim
    | @allocated m' s n hleast hm' =>
      have hrun : IsRun r.manager.bit _ _ n s := hleast.1
      have hlo := hr.rangeBegin ▸ hrun.lo_le
      have hhi := hr.rangeEnd ▸ hrun.le_hi
      rintro f ⟨b, hb, hf⟩
      rcases mem_cons.mp hb with rfl | hb
      · refine ⟨⟨hlo.trans hf.1, Nat.lt_of_lt_of_le hf.2 hhi⟩, ?_⟩
        by_contra hset
        rw [Bool.not_eq_false, ← hr.marked f] at hset
        have hclear := hrun.clear f hf.1 hf.2
        rw [(hr.bits f).mpr (.inl hset)] at hclear
        exact Bool.false_ne_true hclear.symm
      · exact hr.fresh f ⟨b, hb, hf⟩
    | failed hnone => exact hr.fresh
    | freed hb hm' =>
      rintro f ⟨c, hc, hf⟩
      exact hr.fresh f ⟨c, mem_of_mem_erase hc, hf⟩

theorem step (hr : HandOutInv m r) (hmap : m.rangeEnd ≤ kFrameCount) (hlegal : r.Legal op)
    (hno : op.NoMark) :
    ∃ r', frameMachine.step r op = some r' ∧ r.Answers op ∧ HandOutInv m r' := by
  obtain ⟨r', heq, hans, hstep⟩ := r.frameStep (hr.rangeEnd ▸ hmap) hr.exist hlegal
  exact ⟨r', heq, hans, hr.frameStep hmap hno hstep⟩

end HandOutInv

/-! ## Results -/

/-- Along every history of calls the set bits are exactly the frames of live
blocks and the frames that were marked and not freed since, and every `Allocate`
returns the lowest run of clear frames in the range, or fails without touching
the map exactly when there is none. -/
theorem bits_exact {m : BitmapMemoryManager} (hmap : m.rangeEnd ≤ kFrameCount)
    {ops : List FrameOp} (hlegal : frameMachine.AllSteps Frames.Legal (Frames.start m) ops) :
    frameMachine.Always Frames.BitsExact (fun r op _ => r.Answers op) (Frames.start m) ops :=
  Machine.always_of_inv (fun _ hr => hr.bits) (fun _ _ hr h => hr.step hmap h)
    (FramesInv.start m) hlegal

/-- Two blocks around a marked frame, the first one freed again. -/
theorem bits_exact_around_mark :
    frameMachine.AllSteps Frames.Legal (Frames.start (BitmapMemoryManager.new.setMemoryRange 1 9))
        [.markAllocated 2 1, .allocate 2, .allocate 1, .free 3 2] ∧
      frameMachine.Always Frames.BitsExact (fun r op _ => r.Answers op)
        (Frames.start (BitmapMemoryManager.new.setMemoryRange 1 9))
        [.markAllocated 2 1, .allocate 2, .allocate 1, .free 3 2] := by
  have hlegal : frameMachine.AllSteps Frames.Legal
      (Frames.start (BitmapMemoryManager.new.setMemoryRange 1 9))
      [.markAllocated 2 1, .allocate 2, .allocate 1, .free 3 2] := by decide +kernel
  exact ⟨hlegal, bits_exact (by decide) hlegal⟩

/-- The frames that a history marks, whatever is freed after. -/
def FrameOp.Marks (ops : List FrameOp) (f : Nat) : Prop :=
  ∃ start n, .markAllocated start n ∈ ops ∧ start ≤ f ∧ f < start + n

/-- A frame marked while it belongs to a live block is clear once that block is freed. -/
theorem marked_frame_cleared_by_free :
    let ops := [.allocate 1, .markAllocated 0 1, .free 0 1]
    frameMachine.AllSteps Frames.Legal (Frames.start .new) ops ∧ FrameOp.Marks ops 0 ∧
      (frameMachine.run (Frames.start .new) ops).map (fun r => r.manager.bit 0) = some false := by
  refine ⟨by decide +kernel, ⟨0, 1, by decide, by decide, by decide⟩, by decide +kernel⟩

end UnagiOs
