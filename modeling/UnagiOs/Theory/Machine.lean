/-!
# Runs of a partial step machine

A `Machine` takes one input at a time. A step that answers `none` is *stuck*:
it never comes back (an endless loop) or it leaves the memory it owns, so
nothing can be said of what follows.

- `run`: the state after a list of inputs.
- `AllSteps ok`: every input of the list meets `ok` in the state in which it
  is taken.
- `Always P Q`: the run is never stuck, `P` holds in all its states and `Q`
  of all its steps.

Safety results are instances of `run_of_inv`: what one step preserves, a whole
run preserves. `always_iff` is the exact form of it: where a condition on the
steps decides, step by step, whether a property survives, the runs that keep
the property are the runs whose steps all meet the condition.
-/

namespace UnagiOs

open List

universe u v

/-- A deterministic machine with partial steps. -/
structure Machine (σ : Type u) (ι : Type v) where
  /-- One step on one input; `none` when the step is stuck. -/
  step : σ → ι → Option σ

namespace Machine

variable {σ : Type u} {ι : Type v} (M : Machine σ ι)

/-- The state after a list of inputs, `none` once a step is stuck. -/
def run : σ → List ι → Option σ
  | s, [] => some s
  | s, i :: is => (M.step s i).bind fun s' => run s' is

/-- Every input meets `ok` in the state in which it is taken. -/
def AllSteps (ok : σ → ι → Prop) : σ → List ι → Prop
  | _, [] => True
  | s, i :: is => ok s i ∧ ∀ s', M.step s i = some s' → AllSteps ok s' is

/-- No step is stuck, every state meets `P` and every step meets `Q`. -/
def Always (P : σ → Prop) (Q : σ → ι → σ → Prop) : σ → List ι → Prop
  | s, [] => P s
  | s, i :: is => P s ∧ ∃ s', M.step s i = some s' ∧ Q s i s' ∧ Always P Q s' is

/-- No step is stuck and every state meets `P`. -/
def AllStates (P : σ → Prop) : σ → List ι → Prop :=
  M.Always P fun _ _ _ => True

variable {M}

@[simp] theorem run_nil (s : σ) : M.run s [] = some s := rfl

theorem run_cons {s s' : σ} {i : ι} (h : M.step s i = some s') (is : List ι) :
    M.run s (i :: is) = M.run s' is := by
  rw [run, h, Option.bind_some]

theorem run_append (s : σ) (is js : List ι) :
    M.run s (is ++ js) = (M.run s is).bind fun s' => M.run s' js := by
  induction is generalizing s with
  | nil => rfl
  | cons i is ih =>
    rw [cons_append, run, run, Option.bind_assoc]
    exact congrArg _ (funext fun s' => ih s')

/-- Where a concrete run ends, found by evaluation. -/
theorem exists_run_of_any {P : σ → Prop} [DecidablePred P] {s : σ} {is : List ι}
    (h : (M.run s is).any (fun s' => decide (P s')) = true) :
    ∃ s', M.run s is = some s' ∧ P s' := by
  obtain ⟨s', hrun, hP⟩ := (Option.any_eq_true _ _).mp h
  exact ⟨s', hrun, of_decide_eq_true hP⟩

/-- A condition that can be decided step by step can be decided of a run. -/
instance AllSteps.decidable {ok : σ → ι → Prop} [∀ s i, Decidable (ok s i)] :
    ∀ s is, Decidable (M.AllSteps ok s is)
  | _, [] => isTrue trivial
  | s, i :: is =>
    match h : M.step s i with
    | none => decidable_of_iff (ok s i)
        ⟨fun hok => ⟨hok, fun _ hs => absurd (h.symm.trans hs) (by simp)⟩, fun hok => hok.1⟩
    | some s' =>
      have : Decidable (M.AllSteps ok s' is) := AllSteps.decidable s' is
      decidable_of_iff (ok s i ∧ M.AllSteps ok s' is)
        ⟨fun hok => ⟨hok.1, fun _ hs => Option.some.inj (h.symm.trans hs) ▸ hok.2⟩,
          fun hok => ⟨hok.1, hok.2 s' h⟩⟩

/-- A condition that no input of the list can fail. -/
theorem AllSteps.of_mem {ok : σ → ι → Prop} :
    ∀ {s : σ} {is : List ι}, (∀ i ∈ is, ∀ s, ok s i) → M.AllSteps ok s is
  | _, [], _ => trivial
  | s, _ :: _, h => ⟨h _ mem_cons_self s,
      fun _ _ => AllSteps.of_mem fun i hi => h i (mem_cons_of_mem _ hi)⟩

/-- A condition on the inputs alone, for a machine that is never stuck. -/
theorem AllSteps.iff_mem {ok : ι → Prop} (htotal : ∀ s i, ∃ s', M.step s i = some s') {s : σ}
    {is : List ι} : M.AllSteps (fun _ i => ok i) s is ↔ ∀ i ∈ is, ok i := by
  refine ⟨fun h => ?_, fun h => AllSteps.of_mem fun i hi _ => h i hi⟩
  induction is generalizing s with
  | nil => simp
  | cons i is ih =>
    obtain ⟨s', hs'⟩ := htotal s i
    exact forall_mem_cons.mpr ⟨h.1, ih (h.2 s' hs')⟩

theorem AllSteps.and {ok ok' : σ → ι → Prop} :
    ∀ {s : σ} {is : List ι}, M.AllSteps ok s is → M.AllSteps ok' s is →
      M.AllSteps (fun s i => ok s i ∧ ok' s i) s is
  | _, [], _, _ => trivial
  | _, _ :: _, h, h' => ⟨⟨h.1, h'.1⟩, fun s' hs => (h.2 s' hs).and (h'.2 s' hs)⟩

/-- The steps of a prefix, and the steps of the rest from where it ends. -/
theorem AllSteps.split {ok : σ → ι → Prop} {js : List ι} :
    ∀ {is : List ι} {s s' : σ}, M.AllSteps ok s (is ++ js) → M.run s is = some s' →
      M.AllSteps ok s is ∧ M.AllSteps ok s' js
  | [], _, _, h, hrun => by
    cases hrun
    exact ⟨trivial, h⟩
  | i :: is, s, s', h, hrun => by
    cases hstep : M.step s i with
    | none => rw [run, hstep] at hrun; cases hrun
    | some t =>
      rw [run_cons hstep] at hrun
      have hrest := AllSteps.split (h.2 t hstep) hrun
      refine ⟨⟨h.1, fun t' ht => ?_⟩, hrest.2⟩
      cases hstep.symm.trans ht
      exact hrest.1

/-- Two conditions that agree wherever an invariant holds agree along a run. -/
theorem AllSteps.iff_of_inv {Inv : σ → Prop} {legal ok ok' : σ → ι → Prop}
    (hiff : ∀ s i, Inv s → legal s i → (ok s i ↔ ok' s i))
    (hstep : ∀ s i s', Inv s → M.step s i = some s' → Inv s') :
    ∀ {s : σ} {is : List ι}, Inv s → M.AllSteps legal s is →
      (M.AllSteps ok s is ↔ M.AllSteps ok' s is)
  | _, [], _, _ => Iff.rfl
  | s, i :: _, hs, hleg => and_congr (hiff s i hs hleg.1) (forall₂_congr fun s' hs' =>
      AllSteps.iff_of_inv hiff hstep (hstep s i s' hs hs') (hleg.2 s' hs'))

/-- **Invariant rule.** What every step meeting `ok` preserves, every run of
such steps preserves, and none of these runs is stuck. -/
theorem run_of_inv {Inv : σ → Prop} {ok : σ → ι → Prop}
    (hstep : ∀ s i, Inv s → ok s i → ∃ s', M.step s i = some s' ∧ Inv s') :
    ∀ {s : σ} {is : List ι}, Inv s → M.AllSteps ok s is →
      ∃ s', M.run s is = some s' ∧ Inv s'
  | s, [], hs, _ => ⟨s, rfl, hs⟩
  | s, i :: is, hs, hok => by
    obtain ⟨s', hs', hinv⟩ := hstep s i hs hok.1
    rw [run_cons hs']
    exact run_of_inv hstep hinv (hok.2 s' hs')

/-- The invariant rule for the runs that get through. -/
theorem inv_of_run {Inv : σ → Prop} (hstep : ∀ s i s', Inv s → M.step s i = some s' → Inv s') :
    ∀ {s s' : σ} {is : List ι}, Inv s → M.run s is = some s' → Inv s'
  | _, _, [], hs, hrun => Option.some.inj hrun ▸ hs
  | s, s', i :: is, hs, hrun => by
    obtain ⟨t, ht, hrest⟩ := Option.bind_eq_some_iff.mp hrun
    exact inv_of_run hstep (hstep s i t hs ht) hrest

/-- The invariant rule for the properties of all states and all steps. -/
theorem always_of_inv {Inv P : σ → Prop} {Q : σ → ι → σ → Prop} {ok : σ → ι → Prop}
    (hP : ∀ s, Inv s → P s)
    (hstep : ∀ s i, Inv s → ok s i → ∃ s', M.step s i = some s' ∧ Q s i s' ∧ Inv s') :
    ∀ {s : σ} {is : List ι}, Inv s → M.AllSteps ok s is → M.Always P Q s is
  | s, [], hs, _ => hP s hs
  | s, i :: is, hs, hok => by
    obtain ⟨s', hs', hq, hinv⟩ := hstep s i hs hok.1
    exact ⟨hP s hs, s', hs', hq, always_of_inv hP hstep hinv (hok.2 s' hs')⟩

/-- **Exactness rule.** If, on every state of an invariant, a legal step that
meets `ok` keeps the invariant and a legal step that does not meet it is stuck
or breaks `P` or `Q`, then a legal run keeps `P` and `Q` throughout iff all its
steps meet `ok`. -/
theorem always_iff {Inv P : σ → Prop} {Q : σ → ι → σ → Prop} {legal ok : σ → ι → Prop}
    (hP : ∀ s, Inv s → P s)
    (hgood : ∀ s i, Inv s → legal s i → ok s i →
      ∃ s', M.step s i = some s' ∧ Q s i s' ∧ Inv s')
    (hbad : ∀ s i s', Inv s → legal s i → ¬ ok s i → M.step s i = some s' → Q s i s' → ¬ P s') :
    ∀ {s : σ} {is : List ι}, Inv s → M.AllSteps legal s is →
      (M.Always P Q s is ↔ M.AllSteps ok s is)
  | s, [], hs, _ => ⟨fun _ => trivial, fun _ => hP s hs⟩
  | s, i :: is, hs, hleg => by
    constructor
    · rintro ⟨-, s', hstep, hq, hrest⟩
      have hp : P s' := by
        cases is with
        | nil => exact hrest
        | cons _ _ => exact hrest.1
      have hok : ok s i :=
        Classical.byContradiction fun hn => hbad s i s' hs hleg.1 hn hstep hq hp
      obtain ⟨t, ht, -, hinv⟩ := hgood s i hs hleg.1 hok
      cases hstep.symm.trans ht
      refine ⟨hok, fun t ht' => ?_⟩
      cases hstep.symm.trans ht'
      exact (always_iff hP hgood hbad hinv (hleg.2 s' hstep)).mp hrest
    · intro hok
      exact always_of_inv hP (fun s i hs h => hgood s i hs h.1 h.2) hs (hleg.and hok)

/-- A value that every step changes as `f` says, and a property that every step
establishes, told by where the prefixes of the inputs lead. -/
theorem always_iff_prefixes {τ : Type} {v : σ → τ} {f : τ → ι → τ} {R : σ → Prop} {s : σ}
    {is : List ι} :
    M.Always (fun _ => True) (fun s i s' => v s' = f (v s) i ∧ R s') s is ↔
      ∀ js, js <+: is → ∃ s', M.run s js = some s' ∧ v s' = js.foldl f (v s) ∧
        (js ≠ [] → R s') := by
  induction is generalizing s with
  | nil =>
    refine ⟨fun _ js hjs => ?_, fun _ => trivial⟩
    cases prefix_nil.mp hjs
    exact ⟨s, rfl, rfl, fun h => absurd rfl h⟩
  | cons i is ih =>
    constructor
    · rintro ⟨-, s', hs', ⟨hv, hR⟩, hrest⟩ js hjs
      rcases prefix_cons_iff.mp hjs with rfl | ⟨js, rfl, htail⟩
      · exact ⟨s, rfl, rfl, fun h => absurd rfl h⟩
      · obtain ⟨t, ht, hvt, hRt⟩ := ih.mp hrest js htail
        refine ⟨t, (run_cons hs' js).trans ht, ?_, fun _ => ?_⟩
        · rw [foldl_cons, ← hv, hvt]
        · cases js with
          | nil => exact Option.some.inj ht ▸ hR
          | cons j js => exact hRt (cons_ne_nil j js)
    · intro h
      obtain ⟨s', hs', hv, hR⟩ := h [i] ⟨is, rfl⟩
      have hstep : M.step s i = some s' := by simpa [run] using hs'
      refine ⟨trivial, s', hstep, ⟨hv, hR (cons_ne_nil i [])⟩, ih.mpr fun js hjs => ?_⟩
      obtain ⟨t, ht, hvt, hRt⟩ := h (i :: js) (cons_prefix_cons.mpr ⟨rfl, hjs⟩)
      rw [run_cons hstep] at ht
      rw [foldl_cons] at hvt
      have hv' : v s' = f (v s) i := hv
      exact ⟨t, ht, by rw [hvt, hv'], fun _ => hRt (cons_ne_nil i js)⟩

end Machine

end UnagiOs
