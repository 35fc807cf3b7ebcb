import UnagiOs.Usb.Ring

/-!
# The controller takes what was pushed

Positions count all TRBs of the ring, Link TRBs included: a lap has `N + 1` of
them, of which the last is the Link TRB. The producer is at position `P`, the
controller at `C`, and both tell slot and cycle bit of their position from
their own counters. The memory between them is a `CycleRing`; what is published
there, `log`, holds the pushed TRBs and the Link TRBs.

`Stage` says how far the current push has come. The TRB being copied is published
by the store that makes the cycle bit right. That is the last store of the copy
or, if the caller's data carries the right bit already, the store before it.
-/

namespace UnagiOs.Xhci

open List

/-! ## Counting -/

section Count

variable {N P C x : Nat} {log : List TRB} {t : TRB}

/-- The number of positions below `x` that are not for a Link TRB. -/
def dataCount (N x : Nat) : Nat := N * (x / (N + 1)) + x % (N + 1)

/-- The position of a Link TRB does not count. -/
theorem dataCount_succ :
    dataCount N (x + 1) = if x % (N + 1) = N then dataCount N x else dataCount N x + 1 := by
  have hslot : (x + 1) % (N + 1) = _ := succ_mod_eq (by omega)
  unfold dataCount
  by_cases h : x % (N + 1) = N
  · rw [if_pos (by omega)] at hslot
    rw [if_pos h, hslot, Nat.succ_div_of_mod_eq_zero hslot, h, Nat.mul_succ]
    rfl
  · rw [if_neg (by omega)] at hslot
    rw [if_neg h, hslot, Nat.succ_div_of_mod_ne_zero (by omega)]
    rfl

/-- The TRBs that carry a command or a transfer. -/
def dataTRBs (log : List TRB) : List TRB := log.filter fun t => ¬ t.IsLink

/-- The Link TRBs stand at the end of each lap and toggle the cycle state. -/
def LinksAt (N : Nat) (log : List TRB) : Prop :=
  ∀ x t, log[x]? = some t → (t.IsLink ↔ x % (N + 1) = N) ∧ (t.IsLink → t.toggleCycle = true)

theorem LinksAt.take (h : LinksAt N log) (C : Nat) : LinksAt N (log.take C) := by
  intro x t ht
  rw [getElem?_take] at ht
  split at ht
  · exact h x t ht
  · cases ht

/-- A TRB is published at the end of the log. -/
theorem LinksAt.concat (h : LinksAt N log)
    (ht : (t.IsLink ↔ log.length % (N + 1) = N) ∧ (t.IsLink → t.toggleCycle = true)) :
    LinksAt N (log ++ [t]) := by
  intro x u hu
  rw [getElem?_append] at hu
  split at hu
  · exact h x u hu
  · have hx : x = log.length := by
      have := (List.getElem?_eq_some_iff.mp hu).1
      simp at this
      omega
    subst hx
    rw [Nat.sub_self, getElem?_cons_zero] at hu
    cases hu
    exact ht

theorem LinksAt.of_concat (h : LinksAt N (log ++ [t])) : LinksAt N log := by
  have := h.take log.length
  rwa [take_left] at this

/-- A log holds as many data TRBs as it has positions for them. -/
theorem length_dataTRBs (h : LinksAt N log) : (dataTRBs log).length = dataCount N log.length := by
  induction log using List.reverseRecOn with
  | nil => simp [dataTRBs, dataCount]
  | append_singleton log t ih =>
    have ht := (h log.length t getElem?_concat_length).1
    rw [dataTRBs, filter_append, length_append, ← dataTRBs, ih h.of_concat,
      length_append, length_singleton, dataCount_succ]
    by_cases hlink : t.IsLink
    · rw [if_pos (ht.mp hlink)]
      simp [hlink]
    · rw [if_neg fun hx => hlink (ht.mpr hx)]
      simp [hlink]

/-- The last position that a push at `P` writes. -/
def lastPos (N P : Nat) : Nat := if P % (N + 1) + 1 = N then P + 1 else P

/-- The bound on unconsumed TRBs leaves room for the TRB to push, and for the Link
TRB as well unless the controller is still on the previous one. -/
theorem room_of_count (hCP : C ≤ P) (hcount : dataCount N P + 1 ≤ dataCount N C + N)
    (hlink : ¬ (P % (N + 1) + 1 = N ∧ C % (N + 1) = N)) :
    lastPos N P < C + (N + 1) := by
  have hlap : C / (N + 1) ≤ P / (N + 1) := Nat.div_le_div_right hCP
  have hw : P % (N + 1) < N + 1 := Nat.mod_lt P (by omega)
  have hi : C % (N + 1) < N + 1 := Nat.mod_lt C (by omega)
  have hPeq := Nat.div_add_mod P (N + 1)
  have hCeq := Nat.div_add_mod C (N + 1)
  unfold dataCount at hcount
  unfold lastPos
  generalize P / (N + 1) = p at *
  generalize C / (N + 1) = c at *
  generalize P % (N + 1) = w at *
  generalize C % (N + 1) = i at *
  -- the two sides are at most one lap apart
  have hnear : p < c + 2 := by
    refine Nat.lt_of_mul_lt_mul_left (a := N) ?_
    rw [Nat.mul_add]
    omega
  rcases Nat.eq_or_lt_of_le hlap with rfl | hlt
  · split <;> omega
  · obtain rfl : p = c + 1 := by omega
    rw [Nat.mul_succ] at hcount hPeq
    split <;> omega

end Count

/-! ## The invariant -/

/-- The stores that follow the copy of the TRB under the write index. -/
def Ring.after (ring : Ring) : List Store :=
  if ring.writeIndex + 1 = ring.bufSize then [.wrap]
  else .advance ::
    if ring.writeIndex + 1 = ring.bufSize - 1 then
      Ring.copyToLast (.link ring.base) ++ [.wrap]
    else
      []

/-- The payloads of the data TRBs of a log. -/
def payloads (log : List TRB) : List TRB := (dataTRBs log).map TRB.payload

/-- `d` is on its way to position `P`. -/
structure OnItsWay (N P C : Nat) (log : List TRB) (d : TRB) (r : RingRun) : Prop where
  len : log.length = P
  room : lastPos N P < C + (N + 1)
  link : (d.IsLink ↔ P % (N + 1) = N) ∧ (d.IsLink → d.toggleCycle = true)
  pushed : r.pushed.map TRB.payload = payloads (log ++ [d])

/-- How far the current push has come, with the producer at position `P`. -/
inductive Stage (N P C : Nat) (log : List TRB) (r : RingRun) : Prop
  | idle (todo : r.todo = []) (slot : P % (N + 1) ≠ N) (len : log.length = P)
      (pushed : r.pushed.map TRB.payload = payloads log)
  | copying (d : TRB) (i : Nat) (hi : i ≤ 4)
      (todo : r.todo = (Ring.copyToLast d).drop i ++ r.ring.after) (copy : OnItsWay N P C log d r)
      (written : ∀ j : Fin 4, j.val < i → (r.ring.buf r.ring.writeIndex).word j = d.word j)
  | copied (todo : r.todo = .cycle :: r.ring.after ∨ r.todo = r.ring.after)
      (len : log.length = P + 1) (room : lastPos N P < C + (N + 1))
      (pushed : r.pushed.map TRB.payload = payloads log)

/-- The state of a ring with `N` data slots, the producer at position `P` and the
controller at position `C`. -/
structure RingInv (N P C : Nat) (log : List TRB) (r : RingRun) : Prop where
  pos : 0 < N
  bufSize : r.ring.bufSize = N + 1
  writeIndex : r.ring.writeIndex = P % (N + 1)
  cycleBit : r.ring.cycleBit = phase (N + 1) P
  index : r.index = C % (N + 1)
  cycleState : r.cycleState = phase (N + 1) C
  mem : CycleRing TRB.cycleBit (N + 1) r.ring.buf log C
  links : LinksAt N log
  taken : r.taken = dataTRBs (log.take C)
  stage : Stage N P C log r

section Payloads

variable {log : List TRB} {t : TRB} {b : Bool}

theorem payloads_append (l₁ l₂ : List TRB) : payloads (l₁ ++ l₂) = payloads l₁ ++ payloads l₂ := by
  simp [payloads, dataTRBs]

/-- The cycle bit is no part of a payload. -/
theorem payloads_concat_setCycle : payloads (log ++ [t.setCycle b]) = payloads (log ++ [t]) := by
  rw [payloads_append, payloads_append]
  by_cases h : t.IsLink <;> simp [payloads, dataTRBs, h]

theorem payloads_concat_link (h : t.IsLink) : payloads (log ++ [t]) = payloads log := by
  simp [payloads, dataTRBs, h]

theorem payloads_concat_data (h : ¬ t.IsLink) :
    payloads (log ++ [t]) = payloads log ++ [t.payload] := by
  simp [payloads, dataTRBs, h]

end Payloads

/-- The stage does not depend on the controller, except that it makes room. -/
theorem Stage.mono {N P C C' : Nat} {log : List TRB} {r r' : RingRun} (h : Stage N P C log r)
    (hC : C ≤ C') (hring : r'.ring = r.ring) (htodo : r'.todo = r.todo)
    (hpushed : r'.pushed = r.pushed) : Stage N P C' log r' := by
  cases h with
  | idle h₁ h₂ h₃ h₄ => exact .idle (htodo.trans h₁) h₂ h₃ (hpushed ▸ h₄)
  | copying d i h₁ h₂ h₃ h₄ =>
    have hroom := h₃.room
    exact .copying d i h₁ (hring ▸ htodo.trans h₂)
      { h₃ with room := by omega, pushed := hpushed ▸ h₃.pushed } (hring ▸ h₄)
  | copied h₁ h₂ h₃ h₄ =>
    exact .copied (by rw [hring, htodo]; exact h₁) h₂ (by omega) (hpushed ▸ h₄)

namespace RingInv

variable {N P C : Nat} {log : List TRB} {r : RingRun} {s : Store} {todo : List Store} {i : Nat}
  {d : TRB}

theorem after_ne_nil (ring : Ring) : ring.after ≠ [] := by
  unfold Ring.after
  split <;> simp

theorem drop_copyToLast (d : TRB) (hi : i < 4) :
    (Ring.copyToLast d).drop i =
      .word ⟨i, hi⟩ (d.word ⟨i, hi⟩) :: (Ring.copyToLast d).drop (i + 1) := by
  match i with
  | 0 => rfl
  | 1 => rfl
  | 2 => rfl
  | 3 => rfl

theorem lastPos_ge : P ≤ lastPos N P := by
  unfold lastPos
  split <;> omega

variable (hr : RingInv N P C log r)
include hr

/-- What a store into the slot under the write index leaves alone. -/
theorem buf_other (hlen : log.length = P) (t : TRB) :
    ∀ s, s ≠ log.length % (N + 1) → setSlot r.ring.buf r.ring.writeIndex t s = r.ring.buf s := by
  intro s hs
  rw [hlen, ← hr.writeIndex] at hs
  exact if_neg hs

theorem buf_self (hlen : log.length = P) (t : TRB) :
    setSlot r.ring.buf r.ring.writeIndex t (log.length % (N + 1)) = t := by
  rw [hlen, ← hr.writeIndex]
  exact if_pos rfl

/-- The slot under the write index does not have the right bit before it is published. -/
theorem bit_wrong (hlen : log.length = P) :
    (r.ring.buf r.ring.writeIndex).cycleBit = !phase (N + 1) P := by
  rw [hr.writeIndex]
  exact hr.mem.stale P (by omega) (by omega)

/-- A store that does not make the bit right. -/
theorem scribble {t : TRB} (hi : i ≤ 4) (hd : OnItsWay N P C log d r)
    (hbit : t.cycleBit = !phase (N + 1) P) (hwritten : ∀ j : Fin 4, j.val < i → t.word j = d.word j)
    (htodo : todo = (Ring.copyToLast d).drop i ++ r.ring.after) :
    RingInv N P C log
      { r with ring := { r.ring with buf := setSlot r.ring.buf r.ring.writeIndex t }, todo } := by
  have hP : P ≤ lastPos N P := lastPos_ge
  have hlen := hd.len
  have hroom := hd.room
  have hmem := hr.mem.scribble (by omega) (hr.buf_other hlen t)
    (by rw [hr.buf_self hlen, hbit, hlen])
  refine { hr with
    mem := hmem
    stage := .copying d i hi htodo { hd with } fun j hj => ?_ }
  show (setSlot r.ring.buf r.ring.writeIndex t r.ring.writeIndex).word j = d.word j
  rw [setSlot, if_pos rfl]
  exact hwritten j hj

/-- The store that makes the bit right. -/
theorem publish (hd : OnItsWay N P C log d r)
    (htodo : todo = .cycle :: r.ring.after ∨ todo = r.ring.after) :
    RingInv N P C (log ++ [d.setCycle (phase (N + 1) P)])
      { r with
          ring := { r.ring with
            buf := setSlot r.ring.buf r.ring.writeIndex (d.setCycle (phase (N + 1) P)) }
          todo } := by
  have hP : P ≤ lastPos N P := lastPos_ge
  have hle := hr.mem.le
  have hlen := hd.len
  have hroom := hd.room
  have hmem := hr.mem.publish (by omega) (by omega)
    (hr.buf_other hlen (d.setCycle (phase (N + 1) P))) (hr.buf_self hlen _)
    (by rw [TRB.cycleBit_setCycle, hlen])
  refine { hr with
    mem := hmem
    links := hr.links.concat ?_
    taken := ?_
    stage := .copied htodo (by simp [hlen]) hroom
      (hd.pushed.trans payloads_concat_setCycle.symm) }
  · rw [TRB.isLink_setCycle, TRB.toggleCycle_setCycle, hlen]
    exact hd.link
  · rw [take_append_of_le_length hle]
    exact hr.taken

/-- A store of the copy. -/
theorem copy_step (hi : i ≤ 4) (htodo : r.todo = (Ring.copyToLast d).drop i ++ r.ring.after)
    (hway : OnItsWay N P C log d r)
    (hwritten : ∀ j : Fin 4, j.val < i → (r.ring.buf r.ring.writeIndex).word j = d.word j)
    (hs : r.todo = s :: todo) :
    ∃ log', RingInv N P C log' { r with ring := r.ring.exec s, todo } := by
  rcases Nat.eq_or_lt_of_le hi with rfl | hlt
  · -- the whole TRB is there, and its bit is still wrong
    have hd : r.ring.buf r.ring.writeIndex = d := TRB.ext_word fun j => hwritten j j.isLt
    cases htodo.symm.trans hs
    have h := hr.publish hway (.inr rfl)
    rw [← hr.cycleBit, ← hd] at h
    exact ⟨_, h⟩
  · have hwritten' : ∀ j : Fin 4, j.val < i + 1 →
        ((r.ring.buf r.ring.writeIndex).setWord ⟨i, hlt⟩ (d.word ⟨i, hlt⟩)).word j = d.word j := by
      intro j hj
      rw [TRB.word_setWord]
      split
      · next h => rw [h]
      · next h => exact hwritten j (Nat.lt_of_le_of_ne (Nat.le_of_lt_succ hj) fun he =>
          h (Fin.ext he))
    rw [drop_copyToLast d hlt] at htodo
    cases htodo.symm.trans hs
    by_cases hthree : i = 3
    · subst hthree
      have hd : (r.ring.buf r.ring.writeIndex).setWord 3 (d.word 3) = d :=
        TRB.ext_word fun j => hwritten' j j.isLt
      by_cases hbit : d.cycleBit = phase (N + 1) P
      · have h := hr.publish hway (.inl rfl)
        rw [← hbit, TRB.setCycle_self, ← hd] at h
        exact ⟨_, h⟩
      · refine ⟨log, hr.scribble (Nat.le_refl 4) hway ?_ hwritten' rfl⟩
        show ((r.ring.buf r.ring.writeIndex).setWord 3 (d.word 3)).cycleBit = _
        rw [hd]
        exact Bool.eq_not.mpr hbit
    · refine ⟨log, hr.scribble hlt hway ?_ hwritten' rfl⟩
      rw [TRB.cycleBit_setWord fun h => hthree (congrArg Fin.val h)]
      exact hr.bit_wrong hway.len

/-- The store of a bit that is right already. -/
theorem cycle_step (hlen : log.length = P + 1)
    (hroom : lastPos N P < C + (N + 1)) (hpushed : r.pushed.map TRB.payload = payloads log)
    (htodo : todo = r.ring.after) :
    RingInv N P C log { r with ring := r.ring.exec .cycle, todo } := by
  have hbit : (r.ring.buf r.ring.writeIndex).cycleBit = r.ring.cycleBit := by
    have hB : 0 < N + 1 := by omega
    have := hr.mem.stale (P + (N + 1)) (by omega) (by omega)
    rwa [Nat.add_mod_right, phase_add hB, Bool.not_not, ← hr.writeIndex, ← hr.cycleBit] at this
  have hself : (r.ring.buf r.ring.writeIndex).setCycle r.ring.cycleBit =
      r.ring.buf r.ring.writeIndex := by
    rw [← hbit, TRB.setCycle_self]
  rw [Ring.exec, hself, setSlot_self]
  exact { hr with stage := .copied (.inr htodo) hlen hroom hpushed }

/-- The store behind a copy: to the next slot, or around. -/
theorem after_step (hlen : log.length = P + 1) (hroom : lastPos N P < C + (N + 1))
    (hpushed : r.pushed.map TRB.payload = payloads log) (hs : r.ring.after = s :: todo) :
    RingInv N (P + 1) C log { r with ring := r.ring.exec s, todo } := by
  have hpos := hr.pos
  have hB : 0 < N + 1 := by omega
  have hslot : (P + 1) % (N + 1) = _ := succ_mod_eq hB
  have hphase : phase (N + 1) (P + 1) = _ := phase_succ hB
  have hlt : P % (N + 1) < N + 1 := Nat.mod_lt P hB
  unfold Ring.after at hs
  rw [hr.bufSize, hr.writeIndex, Nat.add_sub_cancel] at hs
  by_cases hwrap : P % (N + 1) + 1 = N + 1
  · rw [if_pos hwrap] at hslot hphase hs
    cases hs
    refine { hr with
      writeIndex := hslot.symm
      cycleBit := ?_
      stage := .idle rfl (by omega) hlen hpushed }
    rw [hphase, ← hr.cycleBit]
    rfl
  · rw [if_neg hwrap] at hslot hphase hs
    obtain ⟨rfl, htodo⟩ := List.cons.inj hs
    have hwrite : r.ring.writeIndex + 1 = (P + 1) % (N + 1) := by rw [hr.writeIndex, hslot]
    refine { hr with
      writeIndex := hwrite
      cycleBit := hr.cycleBit.trans hphase.symm
      stage := ?_ }
    by_cases hlast : P % (N + 1) + 1 = N
    · -- the next slot is the last one: the Link TRB
      have hlink := TRB.isLink_link r.ring.base
      have htoggle := TRB.toggleCycle_link r.ring.base
      refine .copying (.link r.ring.base) 0 (by omega) ?_ ⟨hlen, ?_, ?_, ?_⟩ fun j hj => by omega
      · have hafter : (r.ring.exec .advance).after = [.wrap] := by
          unfold Ring.after
          refine if_pos ?_
          show r.ring.writeIndex + 1 + 1 = r.ring.bufSize
          rw [hr.writeIndex, hr.bufSize, hlast]
        rw [if_pos hlast] at htodo
        rw [hafter, ← htodo]
        rfl
      · unfold lastPos at hroom ⊢
        rw [if_pos hlast] at hroom
        rw [if_neg (by omega)]
        exact hroom
      · exact ⟨iff_of_true hlink (by omega), fun _ => htoggle⟩
      · rw [payloads_concat_link hlink]
        exact hpushed
    · rw [if_neg hlast] at htodo
      exact .idle htodo.symm (by omega) hlen hpushed

/-- A store of the producer. -/
theorem store (hs : r.todo = s :: todo) :
    ∃ P' log', RingInv N P' C log' { r with ring := r.ring.exec s, todo } := by
  cases hr.stage with
  | idle htodo => rw [htodo] at hs; cases hs
  | copying d i hi htodo hway hwritten =>
    exact ⟨P, hr.copy_step hi htodo hway hwritten hs⟩
  | copied htodo hlen hroom hpushed =>
    rcases htodo with htodo | htodo
    · obtain ⟨rfl, rfl⟩ := List.cons.inj (htodo.symm.trans hs)
      exact ⟨P, log, hr.cycle_step hlen hroom hpushed rfl⟩
    · exact ⟨P + 1, log, hr.after_step hlen hroom hpushed (htodo.symm.trans hs)⟩

/-- With no store left to do, the producer is between two pushes. -/
theorem idle (htodo : r.todo = []) :
    P % (N + 1) ≠ N ∧ log.length = P ∧ r.pushed.map TRB.payload = payloads log := by
  cases hr.stage with
  | idle _ hslot hlen hpushed => exact ⟨hslot, hlen, hpushed⟩
  | copying d i hi h =>
    have := (append_eq_nil_iff.mp (h.symm.trans htodo)).2
    exact absurd this (after_ne_nil _)
  | copied h =>
    rcases h with h | h
    · cases h.symm.trans htodo
    · exact absurd (h.symm.trans htodo) (after_ne_nil _)

/-- A push begins: none of its stores has been made. -/
theorem push {data : TRB} (hlegal : r.Legal (.push data))
    (hroom : r.HasRoom (.push data)) :
    RingInv N P C log { r with todo := r.ring.push data, pushed := r.pushed ++ [data] } := by
  obtain ⟨htodo, hdata, hcount⟩ := hlegal
  obtain ⟨hslot, hlen, hpushed⟩ := hr.idle htodo
  have hle := hr.mem.le
  have htaken : r.taken.length = dataCount N C := by
    rw [hr.taken, length_dataTRBs (hr.links.take C), length_take, Nat.min_eq_left hle]
  have hlength : r.pushed.length = dataCount N P := by
    have := congrArg List.length hpushed
    rwa [length_map, payloads, length_map, length_dataTRBs hr.links, hlen] at this
  refine { hr with
    stage := .copying data 0 (by omega) ?_ ⟨hlen, ?_, ?_, ?_⟩ fun j hj => by omega }
  · have hnowrap : ¬ r.ring.writeIndex + 1 = r.ring.bufSize := by
      rw [hr.writeIndex, hr.bufSize]
      omega
    show r.ring.push data = _ ++ r.ring.after
    rw [Ring.after, if_neg hnowrap]
    rfl
  · refine room_of_count (by omega) ?_ ?_
    · rw [hlength, htaken, hr.bufSize] at hcount
      exact hcount
    · simp only [RingRun.HasRoom, hr.writeIndex, hr.index, hr.bufSize] at hroom
      exact hroom
  · exact ⟨iff_of_false hdata hslot, fun h => absurd h hdata⟩
  · rw [map_append, hpushed, payloads_concat_data hdata]
    rfl

/-- The controller's step. -/
theorem consume : ∃ C', RingInv N P C' log r.consume := by
  have hB : 0 < N + 1 := by omega
  unfold RingRun.consume
  by_cases hstop : r.Stops
  · rw [if_pos hstop]
    exact ⟨C, hr⟩
  -- the cycle bit is the consumer's: the producer has written the slot
  · have hbit : (r.ring.buf (C % (N + 1))).cycleBit = phase (N + 1) C := by
      rw [← hr.index, ← hr.cycleState]
      exact Classical.not_not.mp hstop
    have hlt := (hr.mem.front_iff hB).mp hbit
    have hfront := hr.mem.front hlt
    obtain ⟨hlink, htoggle⟩ := hr.links C _ hfront
    have hslot : (C + 1) % (N + 1) = _ := succ_mod_eq hB
    have hphase : phase (N + 1) (C + 1) = _ := phase_succ hB
    have hstage : ∀ r' : RingRun, r'.ring = r.ring → r'.todo = r.todo → r'.pushed = r.pushed →
        Stage N P (C + 1) log r' := fun r' => hr.stage.mono (by omega)
    have htaken : dataTRBs (log.take (C + 1)) =
        r.taken ++ dataTRBs [r.ring.buf (C % (N + 1))] := by
      rw [take_add_one, hfront, dataTRBs, filter_append, hr.taken]
      rfl
    rw [if_neg hstop, hr.index]
    split
    · next h =>
      have hend : C % (N + 1) + 1 = N + 1 := congrArg (· + 1) (hlink.mp h)
      rw [if_pos hend] at hslot hphase
      refine ⟨C + 1, { hr with
        index := hslot.symm
        cycleState := ?_
        mem := hr.mem.take hlt
        taken := ?_
        stage := hstage _ rfl rfl rfl }⟩
      · show (if (r.ring.buf (C % (N + 1))).toggleCycle = true then _ else _) = _
        rw [if_pos (htoggle h), hphase, hr.cycleState]
      · rw [htaken]
        simp [dataTRBs, h]
    · next h =>
      have hend : ¬ C % (N + 1) + 1 = N + 1 := fun he => h (hlink.mpr (Nat.succ.inj he))
      rw [if_neg hend] at hslot hphase
      refine ⟨C + 1, { hr with
        index := hslot.symm
        cycleState := hr.cycleState.trans hphase.symm
        mem := hr.mem.take hlt
        taken := ?_
        stage := hstage _ rfl rfl rfl }⟩
      rw [htaken]
      simp [dataTRBs, h]

/-- **One step** of the producer or of the controller. -/
theorem step {op : RingOp} (hlegal : r.Legal op)
    (hroom : r.HasRoom op) :
    ∃ r', ringMachine.step r op = some r' ∧ ∃ P' C' log', RingInv N P' C' log' r' := by
  cases op with
  | push data => exact ⟨_, rfl, P, C, log, hr.push hlegal hroom⟩
  | store =>
    cases htodo : r.todo with
    | nil => exact ⟨r, by simp [ringMachine, RingRun.step, htodo], P, C, log, hr⟩
    | cons s todo =>
      obtain ⟨P', log', hr'⟩ := hr.store htodo
      exact ⟨_, by simp [ringMachine, RingRun.step, htodo], P', C, log', hr'⟩
  | consume =>
    obtain ⟨C', hr'⟩ := hr.consume
    exact ⟨_, rfl, P, C', log, hr'⟩

/-- What was published was pushed. -/
theorem payloads_log :
    payloads log <+: r.pushed.map TRB.payload := by
  cases hr.stage with
  | idle _ _ _ hpushed => rw [hpushed]
  | copying d _ _ _ hway _ =>
    rw [hway.pushed, payloads_append]
    exact prefix_append _ _
  | copied _ _ _ hpushed => rw [hpushed]

/-- What the controller has taken is what was pushed, as far as it has come. -/
theorem exact : r.Exact where
  inOrder := by
    refine List.IsPrefix.trans ?_ hr.payloads_log
    -- the log is longer than what the controller has taken, and no longer than what was pushed
    rw [hr.taken]
    exact ((List.take_prefix C log).filter _).map _
  all htodo hstop := by
    obtain ⟨-, -, hpushed⟩ := hr.idle htodo
    have hge : ¬ C < log.length := by
      intro hlt
      refine hstop ?_
      rw [hr.index, hr.cycleState]
      exact (hr.mem.front_iff (by omega)).mpr hlt
    rw [hpushed, hr.taken, take_of_length_le (by omega), payloads]

end RingInv

/-! ## Results -/

theorem RingInv.start {bufSize : Nat} (hsize : 2 ≤ bufSize) {alloc : Option (BitVec 64)}
    {ring : Ring} (hinit : Ring.initialized bufSize alloc = .ok ring) :
    RingInv (bufSize - 1) 0 0 [] (.start ring) := by
  cases alloc with
  | none => cases hinit
  | some base =>
    cases hinit
    have hphase : phase (bufSize - 1 + 1) 0 = true := by simp [phase]
    have hzero : TRB.zero.cycleBit = false := by decide
    refine ⟨by omega, by show bufSize = _; omega, (Nat.zero_mod _).symm, hphase.symm,
      (Nat.zero_mod _).symm, hphase.symm, .start fun _ _ => hzero, fun x t h => by simp at h, rfl,
      .idle rfl (by rw [Nat.zero_mod]; omega) rfl rfl⟩

/-- However its stores and the controller's steps interleave, `Push` hands the
controller exactly the pushed TRBs, in order and each once, as long as at most
`buf_size - 1` of them are unconsumed and the controller is past the Link TRB
when a push rewrites it. -/
theorem push_in_order {bufSize : Nat} (hsize : 2 ≤ bufSize) {alloc : Option (BitVec 64)}
    {ring : Ring} (hinit : Ring.initialized bufSize alloc = .ok ring) {ops : List RingOp}
    (hops : ringMachine.AllSteps (fun r op => r.Legal op ∧ r.HasRoom op) (.start ring) ops) :
    ringMachine.AllStates RingRun.Exact (.start ring) ops := by
  let Inv (r : RingRun) : Prop := ∃ P C log, RingInv (bufSize - 1) P C log r
  have hstep : ∀ r op, Inv r → r.Legal op ∧ r.HasRoom op →
      ∃ r', ringMachine.step r op = some r' ∧ True ∧ Inv r' := by
    rintro r op ⟨P, C, log, hr⟩ ⟨hlegal, hroom⟩
    obtain ⟨r', heq, hr'⟩ := hr.step hlegal hroom
    exact ⟨r', heq, trivial, hr'⟩
  have hexact : ∀ r, Inv r → r.Exact := by
    rintro r ⟨P, C, log, hr⟩
    exact hr.exact
  exact Machine.always_of_inv hexact hstep ⟨0, 0, [], .start hsize hinit⟩ hops

/-- An Enable Slot command. -/
def enableSlotCommand : TRB := ⟨0, 0, 0, 9#32 <<< 10⟩

/-- Two laps of a ring of three, the controller looking on between the stores. -/
def twoLaps : List RingOp :=
  [RingOp.push enableSlotCommand, .store, .store, .store, .consume, .store, .consume, .store,
    .consume, .store, .push enableSlotCommand] ++ List.replicate 8 RingOp.store ++
    [RingOp.consume] ++ List.replicate 4 RingOp.store ++
    [RingOp.consume, .push enableSlotCommand] ++ List.replicate 5 RingOp.store ++
    [RingOp.consume, .store, .push enableSlotCommand] ++ List.replicate 12 RingOp.store ++
    [RingOp.consume, .consume]

theorem push_in_order_twoLaps :
    ringMachine.AllStates RingRun.Exact
      (.start ⟨fun _ => .zero, 0x1000, 3, true, 0⟩) twoLaps := by
  have hinit : Ring.initialized 3 (some 0x1000) = .ok ⟨fun _ => .zero, 0x1000, 3, true, 0⟩ := rfl
  have hops : ringMachine.AllSteps (fun r op => r.Legal op ∧ r.HasRoom op)
      (.start ⟨fun _ => .zero, 0x1000, 3, true, 0⟩) twoLaps := by decide +kernel
  exact push_in_order (by decide) hinit hops

/-- A ring of two: the second push comes while the controller is on the Link TRB of
the first lap and rewrites it with the cycle bit of the second. The controller
finds the bit wrong and stops, with one TRB not taken. -/
theorem stuck_at_link :
    let ring : Ring := ⟨fun _ => .zero, 0x1000, 2, true, 0⟩
    let push : List RingOp := .push enableSlotCommand :: List.replicate 12 .store
    let ops := push ++ [.consume] ++ push
    Ring.initialized 2 (some 0x1000) = .ok ring ∧
      ringMachine.AllSteps RingRun.Legal (.start ring) ops ∧
      ∃ r, ringMachine.run (.start ring) ops = some r ∧ r.todo = [] ∧ r.Stops ∧
        r.taken.length = 1 ∧ r.pushed.length = 2 :=
  ⟨rfl, by decide +kernel, Machine.exists_run_of_any (by decide +kernel)⟩

end UnagiOs.Xhci
