import UnagiOs.Kernel.Process

/-!
# The run lists

`flags`, `level` and the arrays of the levels say the same thing three times.
`Sched` is that they agree: the entries of a level are distinct, and they are the
running tasks of that level. `mprocess_task_remove` relies on it when it searches
for a task and shifts down what comes after, and `__mprocess_task_add` when it
takes a task that is already there for one that need not be woken.

One lemma for each function says what it does to the lists and that `Sched`
survives.
-/

namespace UnagiOs

/-- **The run lists agree with the tasks.** -/
structure Sched (c : TASKCTL) : Prop where
  nodup : ∀ l, (c.level l).entries.Nodup
  proper : ∀ l, none ∉ (c.level l).entries
  mem : ∀ l t, some t ∈ (c.level l).entries ↔
    (c.tasks0 t).flags = .running ∧ (c.tasks0 t).level = l
  selector : ∀ t, (c.tasks0 t).gdtSegmentSelector = (osMprocessTssGdtIndexStart + t) * 8

section Fields

variable (c : TASKCTL) (t x : TaskId) (v : TASK) (l i : LevelId) (tl : TASKLEVEL)

@[simp] theorem setTask_level : (c.setTask t v).level = c.level := rfl

@[simp] theorem setTask_nowLv : (c.setTask t v).nowLv = c.nowLv := rfl

@[simp] theorem setTask_lvChange : (c.setTask t v).lvChange = c.lvChange := rfl

@[simp] theorem setTask_tasks0 :
    (c.setTask t v).tasks0 x = if x = t then v else c.tasks0 x := rfl

@[simp] theorem setLevel_tasks0 : (c.setLevel l tl).tasks0 = c.tasks0 := rfl

@[simp] theorem setLevel_nowLv : (c.setLevel l tl).nowLv = c.nowLv := rfl

@[simp] theorem setLevel_lvChange : (c.setLevel l tl).lvChange = c.lvChange := rfl

@[simp] theorem setLevel_level :
    (c.setLevel l tl).level i = if i = l then tl else c.level i := rfl

/-- A level is changed in place. -/
theorem setLevel_map (f : TASKLEVEL → TASKLEVEL) :
    (c.setLevel l (f (c.level l))).level i = if i = l then f (c.level i) else c.level i := by
  rw [setLevel_level]
  split
  next hi => rw [hi]
  next => rfl

end Fields

/-- What holds of every level still does when one of them changes to one of which it holds. -/
theorem level_rule {c c' : TASKCTL} {k : LevelId} {f : TASKLEVEL → TASKLEVEL}
    (P : LevelId → TASKLEVEL → Prop)
    (hlevel : ∀ l, c'.level l = if l = k then f (c.level l) else c.level l)
    (h : ∀ l, P l (c.level l)) (hk : P k (f (c.level k))) (l : LevelId) : P l (c'.level l) := by
  rw [hlevel]
  split
  next hl => exact hl ▸ hk
  next => exact h l

/-- The selector of a task leads back to it. -/
theorem gdtTask_selector (t : TaskId) :
    gdtTask ((osMprocessTssGdtIndexStart + t) * 8) = some t := by
  have hdiv : (osMprocessTssGdtIndexStart + t.val) * 8 / 8 = osMprocessTssGdtIndexStart + t := by
    omega
  have hsub : (osMprocessTssGdtIndexStart + t.val) * 8 / 8 - osMprocessTssGdtIndexStart = t := by
    omega
  rw [gdtTask, dif_pos ⟨by omega, by omega, by rw [hsub]; exact t.isLt⟩]
  simp only [hsub]

namespace Sched

variable {c : TASKCTL} {t x : TaskId} {l : LevelId}

/-- Only the levels and the tasks matter. -/
theorem congr {c' : TASKCTL} (h : Sched c) (hl : c'.level = c.level) (ht : c'.tasks0 = c.tasks0) :
    Sched c' := by
  refine ⟨?_, ?_, ?_, ?_⟩ <;> simp only [hl, ht]
  exacts [h.nodup, h.proper, h.mem, h.selector]

/-- Fields of a task may change where neither its selector nor its place does. -/
theorem setTask (h : Sched c) {v : TASK} (hsel : v.gdtSegmentSelector =
      (c.tasks0 t).gdtSegmentSelector)
    (hmem : ∀ l, v.flags = .running ∧ v.level = l ↔
      (c.tasks0 t).flags = .running ∧ (c.tasks0 t).level = l) : Sched (c.setTask t v) := by
  refine ⟨h.nodup, h.proper, fun l x => ?_, fun x => ?_⟩
  · rw [setTask_tasks0, setTask_level, h.mem]
    split
    next hx => rw [hx, hmem]
    next => rfl
  · rw [setTask_tasks0]
    split
    next hx => rw [hsel, h.selector, hx]
    next => exact h.selector x

/-- A running task is found in its level. -/
theorem mem_level (h : Sched c) (ht : (c.tasks0 t).flags = .running) :
    some t ∈ (c.level (c.tasks0 t).level).entries :=
  (h.mem _ t).mpr ⟨ht, rfl⟩

/-- Its level is not empty. -/
theorem running_pos (h : Sched c) (ht : (c.tasks0 t).flags = .running) :
    0 < (c.level (c.tasks0 t).level).running := by
  have hpos := List.length_pos_of_mem (h.mem_level ht)
  rwa [TASKLEVEL.entries, length_slots] at hpos

end Sched

/-! ## `mprocess_task_alloc` -/

/-- `mprocess_task_alloc` takes the first free task. -/
theorem mprocessTaskAlloc_cases (c : TASKCTL) :
    (mprocessTaskAlloc c = (c, none) ∧ ∀ t, (c.tasks0 t).flags ≠ .free) ∨
    ∃ t, mprocessTaskAlloc c =
        (c.setTask t { c.tasks0 t with flags := .allocated, priority := 2 }, some t) ∧
      (c.tasks0 t).flags = .free ∧ ∀ x < t, (c.tasks0 x).flags ≠ .free := by
  unfold mprocessTaskAlloc
  cases hf : (List.finRange osMprocessTaskMax).find?
      fun t => decide ((c.tasks0 t).flags = .free) with
  | none =>
    exact .inl ⟨rfl, fun t => of_decide_eq_false (find?_finRange_eq_none_iff.mp hf t)⟩
  | some t =>
    obtain ⟨ht, hlt⟩ := find?_finRange_eq_some_iff.mp hf
    exact .inr ⟨t, rfl, of_decide_eq_true ht, fun x hx => of_decide_eq_false (hlt x hx)⟩

theorem mprocessTaskAlloc_first {c : TASKCTL} {t : TaskId} (ht : (c.tasks0 t).flags = .free)
    (hlt : ∀ x < t, (c.tasks0 x).flags ≠ .free) : mprocessTaskAlloc c =
      (c.setTask t { c.tasks0 t with flags := .allocated, priority := 2 }, some t) := by
  have hf : (List.finRange osMprocessTaskMax).find?
      (fun t => decide ((c.tasks0 t).flags = .free)) = some t :=
    find?_finRange_eq_some_iff.mpr ⟨decide_eq_true ht, fun x hx => decide_eq_false (hlt x hx)⟩
  unfold mprocessTaskAlloc
  rw [hf]

/-! ## `__mprocess_task_add` -/

/-- A level after a task has joined it. -/
def TASKLEVEL.push (tl : TASKLEVEL) (t : TaskId) : TASKLEVEL :=
  { tl with tasks := setSlot tl.tasks tl.running (some t), running := tl.running + 1 }

/-- The state after a task joins its level. -/
def joined (c : TASKCTL) (t : TaskId) : TASKCTL :=
  let l := (c.tasks0 t).level
  (c.setLevel l ((c.level l).push t)).setTask t { c.tasks0 t with flags := .running }

theorem joined_level (c : TASKCTL) (t : TaskId) (v : TASK) (l : LevelId) :
    (joined (c.setTask t v) t).level l =
      if l = v.level then (c.level l).push t else c.level l := by
  simp only [joined, setTask_level, setTask_tasks0, if_pos]
  exact setLevel_map c v.level l (·.push t)

@[simp] theorem joined_tasks0 (c : TASKCTL) (t x : TaskId) (v : TASK) :
    (joined (c.setTask t v) t).tasks0 x =
      if x = t then { v with flags := .running } else c.tasks0 x := by
  simp only [joined, setTask_tasks0, setLevel_tasks0, if_pos]
  split <;> rfl

@[simp] theorem joined_nowLv (c : TASKCTL) (t : TaskId) : (joined c t).nowLv = c.nowLv := rfl

/-- A task that is not on the list of its level joins it, where there is room. -/
theorem mprocessTaskAdd_eq {c : TASKCTL} {t : TaskId}
    (ht : some t ∉ (c.level (c.tasks0 t).level).entries) :
    mprocessTaskAdd c t =
      if (c.level (c.tasks0 t).level).running < osMprocessTasklevelTasksMax then some (joined c t)
      else none := by
  simp only [mprocessTaskAdd, if_neg ht]
  rfl

/-- A task that is not running can be given a level and join it. -/
theorem Sched.join {c : TASKCTL} {t : TaskId} {v : TASK} (h : Sched c)
    (ht : (c.tasks0 t).flags ≠ .running)
    (hsel : v.gdtSegmentSelector = (c.tasks0 t).gdtSegmentSelector) :
    Sched (joined (c.setTask t v) t) := by
  have hoff : ∀ l, some t ∉ (c.level l).entries := fun l hl => ht ((h.mem l t).mp hl).1
  have hentries : ∀ l, ((joined (c.setTask t v) t).level l).entries =
      if l = v.level then (c.level l).entries ++ [some t] else (c.level l).entries := by
    intro l
    rw [joined_level]
    split
    next => exact slots_setSlot_push _ _ _
    next => rfl
  refine ⟨fun l => ?_, fun l => ?_, fun l x => ?_, fun x => ?_⟩
  · rw [hentries]
    split
    · exact List.nodup_append.mpr ⟨h.nodup l, by simp, fun a ha b hb => by
        rw [List.mem_singleton.mp hb]
        rintro rfl
        exact hoff l ha⟩
    · exact h.nodup l
  · rw [hentries]
    split <;> simp [h.proper l]
  · rw [hentries, joined_tasks0]
    by_cases hx : x = t
    · subst hx
      split
      next hl => simp [hl]
      next hl => simp [hoff l, Ne.symm hl]
    · simp only [if_neg hx]
      split <;> simp [hx, h.mem]
  · rw [joined_tasks0]
    split
    next hx => rw [hsel, h.selector, hx]
    next => exact h.selector x

/-! ## `mprocess_task_remove` -/

/-- A level after a task has left it. -/
def TASKLEVEL.without (tl : TASKLEVEL) (t : TaskId) : TASKLEVEL :=
  let i := tl.entries.idxOf (some t)
  let now := if i < tl.now then tl.now - 1 else tl.now
  { running := tl.running - 1
    now := if now ≥ tl.running - 1 then 0 else now
    tasks := shiftDown tl.tasks i (tl.running - 1 - i) }

section Remove

variable {c : TASKCTL} {t x : TaskId} {l : LevelId}

@[simp] theorem remove_tasks0 (c : TASKCTL) (t : TaskId) : (mprocessTaskRemove c t).tasks0 =
    (c.setTask t { c.tasks0 t with flags := .allocated }).tasks0 := by
  simp only [mprocessTaskRemove]
  split <;> rfl

@[simp] theorem remove_nowLv (c : TASKCTL) (t : TaskId) :
    (mprocessTaskRemove c t).nowLv = c.nowLv := by
  simp only [mprocessTaskRemove]
  split <;> rfl

theorem remove_level (c : TASKCTL) (t : TaskId) (l : LevelId) :
    (mprocessTaskRemove c t).level l =
      if l = (c.tasks0 t).level then (c.level l).without t else c.level l := by
  have hlevel := setLevel_map c (c.tasks0 t).level l (·.without t)
  simp only [mprocessTaskRemove]
  split <;> exact hlevel

theorem remove_level_ne {c : TASKCTL} {t : TaskId} {l : LevelId} (h : l ≠ (c.tasks0 t).level) :
    (mprocessTaskRemove c t).level l = c.level l := by
  rw [remove_level, if_neg h]

theorem remove_lvChange (c : TASKCTL) (t : TaskId) :
    (mprocessTaskRemove c t).lvChange =
      (c.lvChange || decide ((c.level (c.tasks0 t).level).running - 1 = 0)) := by
  simp only [mprocessTaskRemove]
  split
  next h => simp [h]
  next h => simp [h]

/-- The entries that are left. -/
theorem Sched.remove_entries (h : Sched c) (ht : (c.tasks0 t).flags = .running) (l : LevelId) :
    ((mprocessTaskRemove c t).level l).entries = (c.level l).entries.erase (some t) := by
  rw [remove_level]
  split
  next hl =>
    have hmem : some t ∈ (c.level l).entries := (h.mem l t).mpr ⟨ht, hl.symm⟩
    have hidx : (c.level l).entries.idxOf (some t) < (c.level l).running := by
      have := List.idxOf_lt_length_of_mem hmem
      rwa [TASKLEVEL.entries, length_slots] at this
    have hsucc : (c.level l).running - 1 + 1 = (c.level l).running := by omega
    rw [TASKLEVEL.entries, TASKLEVEL.without, slots_shiftDown (by omega), hsucc,
      List.erase_eq_eraseIdx_of_idxOf rfl]
    rfl
  next hl =>
    have hoff : some t ∉ (c.level l).entries := fun hm => hl ((h.mem l t).mp hm).2.symm
    rw [List.erase_of_not_mem hoff]

theorem Sched.remove (h : Sched c) (ht : (c.tasks0 t).flags = .running) :
    Sched (mprocessTaskRemove c t) := by
  refine ⟨fun l => ?_, fun l hl => ?_, fun l x => ?_, fun x => ?_⟩
  · rw [h.remove_entries ht]
    exact (h.nodup l).erase _
  · rw [h.remove_entries ht] at hl
    exact h.proper l (List.mem_of_mem_erase hl)
  · rw [h.remove_entries ht, (h.nodup l).mem_erase_iff, h.mem, remove_tasks0, setTask_tasks0]
    by_cases hx : x = t <;> simp [hx]
  · rw [remove_tasks0, setTask_tasks0]
    split
    next hx => rw [hx]; exact h.selector t
    next => exact h.selector x

end Remove

/-! ## `__mprocess_task_update_currentlv` -/

/-- The first level that is not empty becomes the current one. -/
theorem update_nowLv {c : TASKCTL} {l : LevelId} (hl : 0 < (c.level l).running)
    (hlt : ∀ i < l, (c.level i).running = 0) : (mprocessTaskUpdateCurrentlv c).nowLv = l := by
  have hf : (List.finRange osMprocessTasklevelsMax).find?
      (fun l => decide (0 < (c.level l).running)) = some l :=
    find?_finRange_eq_some_iff.mpr ⟨decide_eq_true hl, fun i hi => by simp [hlt i hi]⟩
  unfold mprocessTaskUpdateCurrentlv
  rw [hf]
  rfl

/-- The level is the lowest-numbered one that is not empty. -/
def Lowest (c : TASKCTL) (l : LevelId) : Prop :=
  0 < (c.level l).running ∧ ∀ i < l, (c.level i).running = 0

/-- The current level after the update is the lowest one if any level is not empty. -/
theorem update_lowest {c : TASKCTL} {l : LevelId} (hl : 0 < (c.level l).running) :
    Lowest c (mprocessTaskUpdateCurrentlv c).nowLv := by
  unfold mprocessTaskUpdateCurrentlv
  cases hf : (List.finRange osMprocessTasklevelsMax).find?
      fun l => decide (0 < (c.level l).running) with
  | none => exact absurd hl (of_decide_eq_false (find?_finRange_eq_none_iff.mp hf l))
  | some i =>
    obtain ⟨hi, hlt⟩ := find?_finRange_eq_some_iff.mp hf
    exact ⟨of_decide_eq_true hi, fun x hx => by simpa using hlt x hx⟩

/-! ## `mprocess_task_run` -/

section Run

variable {c : TASKCTL} {t : TaskId} {level : Int} {priority : Nat}

/-- The level that a call of `mprocess_task_run` asks for. -/
def askedLevel (c : TASKCTL) (t : TaskId) (level : Int) : LevelId :=
  if level < 0 then (c.tasks0 t).level else Fin.ofNat _ level.toNat

/-- The task with the priority that the call asks for. -/
def askedPriority (c : TASKCTL) (t : TaskId) (priority : Nat) : TASK :=
  { c.tasks0 t with priority := if priority > 0 then priority else (c.tasks0 t).priority }

/-- The task with the level and the priority that the call asks for. -/
def askedTask (c : TASKCTL) (t : TaskId) (level : Int) (priority : Nat) : TASK :=
  { askedPriority c t priority with flags := .allocated, level := askedLevel c t level }

/-- The state after `lv_change` has been set. -/
def TASKCTL.changed (c : TASKCTL) : TASKCTL := { c with lvChange := true }

theorem setTask_self (c : TASKCTL) (t : TaskId) : c.setTask t (c.tasks0 t) = c := by
  refine TASKCTL.ext rfl rfl rfl (funext fun x => ?_)
  rw [setTask_tasks0]
  split
  next hx => rw [hx]
  next => rfl

theorem setTask_setTask (c : TASKCTL) (t : TaskId) (v w : TASK) :
    (c.setTask t v).setTask t w = c.setTask t w := by
  refine TASKCTL.ext rfl rfl rfl (funext fun x => ?_)
  simp only [setTask_tasks0]
  split <;> rfl

/-- Removing a task overwrites what is set in the task later anyway. -/
theorem remove_setTask (c : TASKCTL) (t : TaskId) {v : TASK} (w : TASK)
    (hv : v.level = (c.tasks0 t).level) :
    (mprocessTaskRemove (c.setTask t v) t).setTask t w = (mprocessTaskRemove c t).setTask t w := by
  refine TASKCTL.ext ?_ ?_ (funext fun l => ?_) (funext fun x => ?_)
  · simp
  · simp [remove_lvChange, hv]
  · simp [remove_level, hv]
  · simp only [setTask_tasks0, remove_tasks0]
    split <;> rfl

theorem askedPriority_eq (c : TASKCTL) (t : TaskId) (priority : Nat) :
    (if priority > 0 then c.setTask t { c.tasks0 t with priority := priority } else c) =
      c.setTask t (askedPriority c t priority) := by
  unfold askedPriority
  split
  next => rfl
  next => exact (setTask_self c t).symm

/-- A call for a free task, whatever the level. -/
theorem run_free (level : Int) (priority : Nat) (ht : (c.tasks0 t).flags = .free) :
    mprocessTaskRun c (some t) level priority =
      some (c.setTask t (askedPriority c t priority)).changed := by
  simp only [mprocessTaskRun, askedPriority_eq, setTask_tasks0, if_pos]
  simp [askedPriority, ht, TASKCTL.changed]

section Asked

-- a level that exists, or a negative one, which keeps the task where it is
variable (hl : level < osMprocessTasklevelsMax)
include hl

theorem askedLevel_val : (if level < 0 then (((c.tasks0 t).level : Nat) : Int) else level) =
    (askedLevel c t level : Nat) := by
  unfold askedLevel
  split
  next => rfl
  next hneg =>
    have hlt : level.toNat < osMprocessTasklevelsMax := by omega
    rw [Fin.val_ofNat, Nat.mod_eq_of_lt hlt]
    omega

/-- A call for a task that is free, or runs at that level already. -/
theorem run_touch (ht : (c.tasks0 t).flags = .free ∨
      (c.tasks0 t).flags = .running ∧ (c.tasks0 t).level = askedLevel c t level) :
    mprocessTaskRun c (some t) level priority =
      some (c.setTask t (askedPriority c t priority)).changed := by
  simp only [mprocessTaskRun, askedLevel_val hl, askedPriority_eq, setTask_tasks0, if_pos]
  rcases ht with ht | ⟨ht, hlev⟩
  · simp [askedPriority, ht, TASKCTL.changed]
  · simp [askedPriority, ht, hlev, TASKCTL.changed]

/-- A call for a task that is asleep puts it on the list of its level, where there is room. -/
theorem run_wake (h : Sched c) (ht : (c.tasks0 t).flags = .allocated) :
    mprocessTaskRun c (some t) level priority =
      if (c.level (askedLevel c t level)).running < osMprocessTasklevelTasksMax then
        some (joined (c.setTask t (askedTask c t level priority)) t).changed
      else none := by
  have hoff : some t ∉ (c.level (askedLevel c t level)).entries := by
    simp [h.mem, ht]
  have hf : (askedPriority c t priority).flags = .allocated := ht
  have hadd : mprocessTaskAdd (c.setTask t (askedTask c t level priority)) t = _ :=
    mprocessTaskAdd_eq (by simpa [askedTask] using hoff)
  simp only [setTask_level, setTask_tasks0, if_pos, askedTask] at hadd
  simp only [mprocessTaskRun, askedLevel_val hl, askedPriority_eq, setTask_tasks0, if_pos, hf,
    reduceCtorEq, false_and, if_false, Int.toNat_natCast, Fin.is_lt, dif_pos, Fin.eta,
    setTask_setTask, hadd]
  split <;> rfl

/-- A call for a task that runs at another level moves it here, where there is room. -/
theorem run_move (h : Sched c) (ht : (c.tasks0 t).flags = .running)
    (hlev : (c.tasks0 t).level ≠ askedLevel c t level) :
    mprocessTaskRun c (some t) level priority =
      if (c.level (askedLevel c t level)).running < osMprocessTasklevelTasksMax then
        some (joined ((mprocessTaskRemove c t).setTask t (askedTask c t level priority)) t).changed
      else none := by
  have hf : (askedPriority c t priority).flags = .running := ht
  have hlev' : (((askedPriority c t priority).level : Nat) : Int) ≠
      (askedLevel c t level : Nat) := fun heq => hlev (Fin.ext (Int.ofNat_inj.mp heq))
  -- the priority was set in the task before it was removed
  have htask : ((mprocessTaskRemove (c.setTask t (askedPriority c t priority)) t).setTask t
      { (mprocessTaskRemove (c.setTask t (askedPriority c t priority)) t).tasks0 t with
        level := askedLevel c t level }) =
      (mprocessTaskRemove c t).setTask t (askedTask c t level priority) := by
    rw [← remove_setTask c t (v := askedPriority c t priority) _ rfl, remove_tasks0]
    simp [askedTask]
  have hf' : ((mprocessTaskRemove (c.setTask t (askedPriority c t priority)) t).tasks0 t).flags =
      .allocated := by simp
  have hmove := And.intro hf hlev'
  have hadd : mprocessTaskAdd
      ((mprocessTaskRemove c t).setTask t (askedTask c t level priority)) t = _ :=
    mprocessTaskAdd_eq (by simp [askedTask, remove_level_ne hlev.symm, h.mem, hlev])
  simp only [setTask_level, setTask_tasks0, if_pos, askedTask,
    remove_level_ne hlev.symm] at hadd htask ⊢
  simp only [mprocessTaskRun, askedLevel_val hl, askedPriority_eq, setTask_tasks0, if_pos hmove,
    if_true, hf', Int.toNat_natCast, Fin.is_lt, dif_pos, Fin.eta] at htask ⊢
  rw [htask, hadd]
  split <;> rfl

end Asked

/-- A task can join no level that does not exist. -/
theorem run_no_level (priority : Nat) (hl : (osMprocessTasklevelsMax : Int) ≤ level)
    (ht : (c.tasks0 t).flags ≠ .free) : mprocessTaskRun c (some t) level priority = none := by
  have hneg : ¬ level < 0 := by omega
  have hno : ¬ level.toNat < osMprocessTasklevelsMax := by omega
  have hlev : (((c.tasks0 t).level : Nat) : Int) ≠ level := by
    have := (c.tasks0 t).level.isLt
    omega
  simp only [mprocessTaskRun, askedPriority_eq, setTask_tasks0, if_pos, if_neg hneg, dif_neg hno]
  cases hf : (c.tasks0 t).flags with
  | free => exact absurd hf ht
  | allocated => simp [askedPriority, hf]
  | running => simp [askedPriority, hf, hlev]

end Run

/-! ## `mprocess_init` -/

/-- The state that `mprocess_init` sets up: the caller runs at level 0 and the idle
task at level 9. -/
def initTaskctl : TASKCTL where
  nowLv := 0
  lvChange := true
  level l :=
    if l = 0 then ⟨1, 0, setSlot (fun _ => none) 0 (some 0)⟩
    else if l = 9 then ⟨1, 0, setSlot (fun _ => none) 0 (some 1)⟩
    else ⟨0, 0, fun _ => none⟩
  tasks0 t :=
    if t = 0 then ⟨(osMprocessTssGdtIndexStart + t) * 8, .running, 2, 0⟩
    else if t = 1 then ⟨(osMprocessTssGdtIndexStart + t) * 8, .running, 1, 9⟩
    else ⟨(osMprocessTssGdtIndexStart + t) * 8, .free, 0, 0⟩

theorem sched_initTasks : Sched mprocessInitTasks :=
  ⟨fun _ => List.nodup_nil, fun _ => List.not_mem_nil, fun l t => by
    simp [mprocessInitTasks, TASKLEVEL.entries, slots], fun _ => rfl⟩

/-- The first task joins its level. -/
def initFirst : TASKCTL :=
  mprocessTaskUpdateCurrentlv (joined (mprocessInitTasks.setTask 0
    { mprocessInitTasks.tasks0 0 with flags := .running, priority := 2, level := 0 }) 0)

theorem sched_initFirst : Sched initFirst := by
  have hjoined : Sched (joined (mprocessInitTasks.setTask 0
      { mprocessInitTasks.tasks0 0 with flags := .running, priority := 2, level := 0 }) 0) :=
    sched_initTasks.join (by simp [mprocessInitTasks]) rfl
  exact hjoined.congr rfl rfl

theorem initFirst_tasks0 (t : TaskId) : initFirst.tasks0 t =
    if t = 0 then ⟨(osMprocessTssGdtIndexStart + t) * 8, .running, 2, 0⟩
    else ⟨(osMprocessTssGdtIndexStart + t) * 8, .free, 0, 0⟩ := by
  refine (joined_tasks0 _ _ _ _).trans ?_
  split
  next ht => rw [ht]; rfl
  next => rfl

theorem initFirst_level (l : LevelId) : initFirst.level l =
    if l = 0 then ⟨1, 0, setSlot (fun _ => none) 0 (some 0)⟩ else ⟨0, 0, fun _ => none⟩ :=
  joined_level _ _ _ _

theorem initFirst_nowLv : initFirst.nowLv = 0 :=
  update_nowLv (by decide) fun i hi => absurd hi (Nat.not_lt_zero _)

theorem initFirst_idle : initFirst.tasks0 1 =
    ⟨(osMprocessTssGdtIndexStart + 1) * 8, .free, 0, 0⟩ := by
  rw [initFirst_tasks0, if_neg (by decide)]
  rfl

/-- The idle task is allocated, at level 9. -/
def initIdle : TASKCTL :=
  initFirst.setTask 1 ⟨(osMprocessTssGdtIndexStart + 1) * 8, .allocated, 1, 9⟩

theorem sched_initIdle : Sched initIdle :=
  sched_initFirst.setTask (by rw [initFirst_idle]) (by simp [initFirst_idle])

theorem initIdle_run :
    mprocessTaskRun initIdle (some 1) (-1) 0 = some (joined initIdle 1).changed := by
  have hlevel : askedLevel initIdle 1 (-1) = 9 := rfl
  rw [run_wake (by decide) sched_initIdle rfl,
    if_pos (by rw [hlevel, initIdle, setTask_level, initFirst_level]; decide), initIdle,
    setTask_setTask]
  rfl

/-- The idle task joins its level. -/
theorem initIdle_eq : (joined initIdle 1).changed = initTaskctl := by
  refine TASKCTL.ext initFirst_nowLv rfl (funext fun l => ?_) (funext fun t => ?_)
  · refine (joined_level _ _ _ _).trans ?_
    simp only [initFirst_level, initTaskctl]
    by_cases h0 : l = 0
    · rw [if_neg (by rw [h0]; decide), if_pos h0, if_pos h0]
    · rw [if_neg h0, if_neg h0]
      rfl
  · refine (joined_tasks0 _ _ _ _).trans ?_
    simp only [initFirst_tasks0, initTaskctl]
    by_cases h0 : t = 0
    · rw [if_neg (by rw [h0]; decide), if_pos h0, if_pos h0]
    · by_cases h1 : t = 1
      · rw [if_pos h1, if_neg h0, if_pos h1, h1]
        rfl
      · rw [if_neg h1, if_neg h0, if_neg h0, if_neg h1]

/-- **`mprocess_init`** runs the caller at level 0 and the idle task at level 9. -/
theorem mprocessInit_eq : mprocessInit = some (initTaskctl, some 0) := by
  have halloc₀ : mprocessTaskAlloc mprocessInitTasks = _ :=
    mprocessTaskAlloc_first (t := 0) rfl fun x hx => absurd hx (Nat.not_lt_zero _)
  have halloc₁ : mprocessTaskAlloc initFirst = _ :=
    mprocessTaskAlloc_first (t := 1) (by rw [initFirst_idle]) fun x hx => by
      have hx : x = 0 := Fin.ext (Nat.lt_one_iff.mp hx)
      simp [hx, initFirst_tasks0]
  have hfirst : mprocessTaskUpdateCurrentlv (joined (mprocessInitTasks.setTask 0
      ⟨(mprocessInitTasks.tasks0 0).gdtSegmentSelector, .running, 2, 0⟩) 0) = initFirst := rfl
  unfold mprocessInit
  rw [halloc₀]
  simp only [Option.bind_eq_bind, Option.bind_some, setTask_setTask, setTask_tasks0, if_pos]
  rw [mprocessTaskAdd_eq (by decide), if_pos (by decide), Option.bind_some, hfirst, halloc₁]
  simp only [Option.bind_some, setTask_setTask, setTask_tasks0, if_pos, initFirst_idle]
  rw [← initIdle_eq]
  exact congrArg (Option.bind · _) initIdle_run

theorem sched_init : Sched initTaskctl := by
  have hjoined : Sched (joined initIdle 1) :=
    sched_initFirst.join (by simp [initFirst_idle]) (by rw [initFirst_idle])
  rw [← initIdle_eq]
  exact hjoined.congr rfl rfl

end UnagiOs
