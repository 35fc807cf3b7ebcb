/-!
# Transducers and simulation

A `Transducer` is a machine that answers every input. `Simulates T S f R` says that `T` does
what `S` does: from related states it goes to related states, and it answers what `S` answers,
rendered by `f`. Then it does so along every run (`Simulates.run`).
-/

namespace UnagiOs

universe u v w

/-- A deterministic machine with answers; `none` when a step is stuck. -/
structure Transducer (σ : Type u) (ι : Type v) (ο : Type w) where
  step : σ → ι → Option (σ × ο)

namespace Transducer

variable {σ τ ι ο ρ : Type} {T : Transducer σ ι ο}

/-- The state after a list of inputs, and the answers. -/
def run (T : Transducer σ ι ο) : σ → List ι → Option (σ × List ο)
  | s, [] => some (s, [])
  | s, i :: is =>
    (T.step s i).bind fun r => (run T r.1 is).map fun rest => (rest.1, r.2 :: rest.2)

/-- One step of `S` is matched by one step of `T`. -/
def Simulates (T : Transducer σ ι ο) (S : Transducer τ ι ρ) (f : ρ → ο) (R : σ → τ → Prop) :
    Prop :=
  ∀ s t i t' r, R s t → S.step t i = some (t', r) → ∃ s', T.step s i = some (s', f r) ∧ R s' t'

/-- From the answers of single steps to those of a run. -/
theorem Simulates.run {S : Transducer τ ι ρ} {f : ρ → ο} {R : σ → τ → Prop}
    (hsim : T.Simulates S f R) {s : σ} {t t' : τ} {is : List ι} {rs : List ρ} (hR : R s t)
    (hrun : S.run t is = some (t', rs)) : ∃ s', T.run s is = some (s', rs.map f) ∧ R s' t' := by
  induction is generalizing s t rs with
  | nil =>
    cases hrun
    exact ⟨s, rfl, hR⟩
  | cons i is ih =>
    simp only [Transducer.run, Option.bind_eq_some_iff, Option.map_eq_some_iff] at hrun
    obtain ⟨⟨t₁, r⟩, hstep, ⟨t₂, rest⟩, hrest, heq⟩ := hrun
    cases heq
    obtain ⟨s₁, hs₁, hR₁⟩ := hsim s t i t₁ r hR hstep
    obtain ⟨s₂, hs₂, hR₂⟩ := ih hR₁ hrest
    refine ⟨s₂, ?_, hR₂⟩
    simp only [Transducer.run, hs₁, Option.bind_some, hs₂, Option.map_some, List.map_cons]

theorem run_append (T : Transducer σ ι ο) (s : σ) (is js : List ι) :
    T.run s (is ++ js) =
      (T.run s is).bind fun r => (T.run r.1 js).map fun r' => (r'.1, r.2 ++ r'.2) := by
  induction is generalizing s with
  | nil =>
    show T.run s js = (T.run s js).map fun r' => (r'.1, [] ++ r'.2)
    exact Option.map_id'.symm
  | cons i is ih =>
    rw [List.cons_append, Transducer.run, Transducer.run]
    cases T.step s i with
    | none => rfl
    | some r =>
      rw [Option.bind_some, Option.bind_some, ih]
      cases T.run r.1 is with
      | none => rfl
      | some r' =>
        rw [Option.bind_some, Option.map_some, Option.bind_some, Option.map_map]
        rfl

/-- A transducer that is never stuck comes back from every run. -/
theorem exists_run (htotal : ∀ s i, ∃ r, T.step s i = some r) (s : σ) (is : List ι) :
    ∃ r, T.run s is = some r := by
  induction is generalizing s with
  | nil => exact ⟨_, rfl⟩
  | cons i is ih =>
    obtain ⟨r, hstep⟩ := htotal s i
    obtain ⟨rest, hrest⟩ := ih r.1
    exact ⟨_, by rw [Transducer.run, hstep, Option.bind_some, hrest, Option.map_some]⟩

end Transducer

end UnagiOs
