import UnagiOs.Kernel.SchedRun

/-!
# Round robin

`mprocess_task_autoswitch` goes round the list of the current level, and `lv_change`
tells it when to look for the current level again.

- `Sched.roundRobin`: from a state with `now` in range and a running task, the switches
  select the tasks of the lowest level that is not empty in the cyclic order of its list.
- `roundRobin_reachable`: this holds from every reachable state, and while `lv_change` is
  not set the current level is the lowest one, as long as a task runs.

When the last task goes to sleep `__mprocess_task_update_currentlv` finds no level. It
takes the last one, and clears `lv_change`.
-/

namespace UnagiOs

/-- The tasks that `n` calls of `mprocess_task_autoswitch` in a row select. -/
def autoswitches (c : TASKCTL) : Nat → List (Option TaskId)
  | 0 => []
  | n + 1 => (mprocessTaskAutoswitch c).taskNext :: autoswitches (mprocessTaskAutoswitch c).ctl n

/-- The switches from here on go round the list of the level. -/
structure RoundRobin (c : TASKCTL) (l : LevelId) : Prop where
  /-- They select tasks of the level, -/
  selects : ∀ n, ∀ x ∈ autoswitches c n, x ∈ (c.level l).entries
  /-- in the cyclic order of the list, -/
  cyclic : ∃ j, ∀ n, autoswitches c n = cycleFrom (c.level l).tasks (c.level l).running j n
  /-- and each of them exactly once in `running` consecutive selections. -/
  each : ∀ n i t, i + (c.level l).running ≤ n → some t ∈ (c.level l).entries →
    (((autoswitches c n).drop i).take (c.level l).running).count (some t) = 1

/-! ## The selections -/

section Switches

variable {c : TASKCTL} {l : LevelId}

theorem autoswitches_succ (c : TASKCTL) (n : Nat) : autoswitches c (n + 1) =
    mprocessTaskGetCurrent (switched c) :: autoswitches (switched c) n := rfl

theorem advance_now {tl : TASKLEVEL} (h : tl.now < tl.running) :
    tl.advance.now = (tl.now + 1) % tl.running := by
  simp only [TASKLEVEL.advance]
  split
  next heq => rw [heq, Nat.mod_self]
  next hne => exact (Nat.mod_eq_of_lt (by omega)).symm

/-- With no change of level pending, the switches go on behind the current slot. -/
theorem autoswitches_eq (n : Nat) (hlv : c.lvChange = false)
    (hnow : (c.level c.nowLv).now < (c.level c.nowLv).running) :
    autoswitches c n = cycleFrom (c.level c.nowLv).tasks (c.level c.nowLv).running
      ((c.level c.nowLv).now + 1) n := by
  induction n generalizing c with
  | zero => rfl
  | succ n ih =>
    have hpos : 0 < (c.level c.nowLv).running := Nat.zero_lt_of_lt hnow
    have hlevel : (switched c).level (switched c).nowLv = (c.level c.nowLv).advance := by
      rw [switched_nowLv c hlv, switched_level, if_pos rfl]
    have hadv := advance_now hnow
    have hlt : (c.level c.nowLv).advance.now < (c.level c.nowLv).running :=
      hadv ▸ Nat.mod_lt _ hpos
    rw [autoswitches_succ, cycleFrom_succ, ih (switched_lvChange c) (by rw [hlevel]; exact hlt),
      mprocessTaskGetCurrent, hlevel, hadv]
    exact congrArg (_ :: ·) (cycleFrom_congr (Nat.mod_add_mod _ _ 1) n)

/-- **Round robin from a state with `now` in range**, whether a change of level is
pending or not. -/
theorem Sched.roundRobin (h : Sched c) (hnow : NowInRange c)
    (hlow : Lowest c (switched c).nowLv) : RoundRobin c (switched c).nowLv := by
  have hpos := hlow.1
  have hlt : ((switched c).level (switched c).nowLv).now <
      ((switched c).level (switched c).nowLv).running :=
    hnow.switched _ (by rwa [switched_running])
  have hcyclic : ∀ n, autoswitches c n = cycleFrom (c.level (switched c).nowLv).tasks
      (c.level (switched c).nowLv).running ((switched c).level (switched c).nowLv).now n := by
    intro n
    cases n with
    | zero => rfl
    | succ n =>
      rw [autoswitches_succ, autoswitches_eq n (switched_lvChange c) hlt, cycleFrom_succ,
        mprocessTaskGetCurrent, switched_tasks, switched_running,
        Nat.mod_eq_of_lt (switched_running c _ ▸ hlt)]
  refine ⟨fun n x hx => ?_, ⟨_, hcyclic⟩, fun n i t hn ht => ?_⟩
  · rw [hcyclic] at hx
    exact mem_of_mem_cycleFrom hpos hx
  · rw [hcyclic, cycleFrom_window hn, (List.rotate_perm _ _).count_eq]
    exact List.count_eq_one_of_mem (h.nodup _) ht

/-- A level that is not empty has a running task. -/
theorem Sched.exists_running (h : Sched c) (hl : 0 < (c.level l).running) :
    ∃ t, (c.tasks0 t).flags = .running := by
  obtain ⟨t, -, ht, -⟩ := h.exists_of_mem (mem_slots.mpr ⟨0, hl, rfl⟩)
  exact ⟨t, ht⟩

end Switches

/-- **Round robin in every reachable state.** With `now` in range and a running task, the
switches select the tasks of the lowest level that is not empty, in cyclic order, each once in
a round. While `lv_change` is not set, the current level is that level iff a task runs. -/
theorem roundRobin_reachable (ops : List TaskOp) {s : Cpu}
    (hrun : taskMachine.run taskStart ops = some s) :
    (NowInRange s.ctl → (∃ t, (s.ctl.tasks0 t).flags = .running) →
      ∃ l, Lowest s.ctl l ∧ RoundRobin s.ctl l) ∧
    (s.ctl.lvChange = false →
      (Lowest s.ctl s.ctl.nowLv ↔ ∃ t, (s.ctl.tasks0 t).flags = .running)) := by
  have h : LevelInv s.ctl :=
    Machine.inv_of_run (fun _ _ _ (h : LevelInv _) hs =>
      have ⟨hsched, hstep⟩ := h.sched.of_step hs
      h.step hstep hsched) LevelInv.start hrun
  constructor
  · intro hnow ht
    have hlow := h.switched.lowest (switched_lvChange _) (by rwa [switched_tasks0])
    simp only [Lowest, switched_running] at hlow
    exact ⟨_, hlow, h.sched.roundRobin hnow hlow⟩
  · exact fun hlv => ⟨fun hlow => h.sched.exists_running hlow.1, h.lowest hlv⟩

instance (c : TASKCTL) : Decidable (NowInRange c) :=
  inferInstanceAs (Decidable (∀ _ : LevelId, _ → _))

/-- A second task joins the caller at level 1. -/
theorem roundRobin_reachable_two_tasks : ∃ s, taskMachine.run taskStart
      [.run (some 0) 1 2, .alloc, .run (some 2) 1 1] = some s ∧
    ∃ l, Lowest s.ctl l ∧ RoundRobin s.ctl l := by
  have hex : ∃ s,
      taskMachine.run taskStart [.run (some 0) 1 2, .alloc, .run (some 2) 1 1] = some s ∧
      NowInRange s.ctl ∧ (s.ctl.tasks0 0).flags = .running :=
    Machine.exists_run_of_any (by rw [taskStart_eq]; decide +kernel)
  obtain ⟨s, hrun, hnow, ht⟩ := hex
  exact ⟨s, hrun, (roundRobin_reachable _ hrun).1 hnow ⟨0, ht⟩⟩

/-- The idle task and the caller go to sleep: `lv_change` is clear and `now_lv` is 9, a level
as empty as all others. -/
theorem nowLv_empty_after_last_sleep : ∃ s,
    taskMachine.run taskStart [.sleep (some 1), .sleep (some 0)] = some s ∧
      s.ctl.lvChange = false ∧ s.ctl.nowLv = 9 ∧ ∀ l, (s.ctl.level l).running = 0 :=
  Machine.exists_run_of_any (by rw [taskStart_eq]; decide +kernel)

end UnagiOs
