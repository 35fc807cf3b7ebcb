import UnagiOs.Theory.Machine

/-!
# Items that go through a machine

Items come into a machine with its inputs, are on the way for a while, and come out of it with
later steps. `OnTheWay s l` says that `l` are the items on the way, those that come out first at
the front.

A step that takes no item twice and none out of turn hands out and keeps a sublist of what was
there and what came in (`Conveys`). So does every run, and a run has not lost an item exactly if
none of its steps has (`Conveys.run`).
-/

namespace UnagiOs

namespace Machine

variable {σ ι α : Type}

/-- What comes out along a run. -/
def emitted (M : Machine σ ι) (out : σ → ι → List α) : σ → List ι → List α
  | _, [] => []
  | s, i :: is => out s i ++ (M.step s i).elim [] fun s' => emitted M out s' is

theorem emitted_cons {M : Machine σ ι} {s s' : σ} {i : ι} (h : M.step s i = some s')
    (out : σ → ι → List α) (is : List ι) :
    M.emitted out s (i :: is) = out s i ++ M.emitted out s' is := by
  rw [emitted, h]
  rfl

/-- Every legal step goes through and keeps the order of the items; those that `keeps` admits lose
none. -/
structure Conveys (M : Machine σ ι) (OnTheWay : σ → List α → Prop) (into : ι → List α)
    (out : σ → ι → List α) (legal keeps : σ → ι → Prop) : Prop where
  step : ∀ s i l, OnTheWay s l → legal s i → ∃ s' l', M.step s i = some s' ∧ OnTheWay s' l' ∧
    List.Sublist (out s i ++ l') (l ++ into i) ∧ (out s i ++ l' = l ++ into i ↔ keeps s i)

variable {M : Machine σ ι} {OnTheWay : σ → List α → Prop} {into : ι → List α}
  {out : σ → ι → List α} {legal keeps : σ → ι → Prop}

/-- **Nothing overtakes.** What has come out and what is on the way is a sublist of what was there
and what has come in, and all of it exactly if every step kept its items. -/
theorem Conveys.run (h : Conveys M OnTheWay into out legal keeps) {s : σ} {l : List α}
    (hs : OnTheWay s l) {is : List ι} (hlegal : M.AllSteps legal s is) :
    ∃ s' l', M.run s is = some s' ∧ OnTheWay s' l' ∧
      List.Sublist (M.emitted out s is ++ l') (l ++ is.flatMap into) ∧
      (M.emitted out s is ++ l' = l ++ is.flatMap into ↔ M.AllSteps keeps s is) := by
  induction is generalizing s l with
  | nil =>
    exact ⟨s, l, rfl, hs, List.sublist_append_left l [],
      iff_of_true (List.append_nil l).symm trivial⟩
  | cons i is ih =>
    obtain ⟨t, m, hstep, ht, hsub, hkeeps⟩ := h.step s i l hs hlegal.1
    obtain ⟨s', l', hrun, hs', hsub', hkeeps'⟩ := ih ht (hlegal.2 t hstep)
    refine ⟨s', l', (run_cons hstep is).trans hrun, hs', ?_⟩
    rw [emitted_cons hstep, List.flatMap_cons, List.append_assoc, ← List.append_assoc l]
    have hrest : List.Sublist (out s i ++ (M.emitted out t is ++ l'))
        (out s i ++ m ++ is.flatMap into) := by
      rw [List.append_assoc]
      exact hsub'.append_left _
    have hfirst : List.Sublist (out s i ++ m ++ is.flatMap into)
        (l ++ into i ++ is.flatMap into) := hsub.append_right _
    refine ⟨hrest.trans hfirst, ?_⟩
    constructor
    · -- no step can make up for an item that another one has lost
      intro heq
      have hlen := congrArg List.length heq
      have hle := hrest.length_le
      have hle' := hfirst.length_le
      have hmid := hrest.eq_of_length (by omega)
      have hend := hfirst.eq_of_length (by omega)
      rw [List.append_assoc] at hmid
      refine ⟨hkeeps.mp (List.append_cancel_right hend), fun t' ht' => ?_⟩
      cases hstep.symm.trans ht'
      exact hkeeps'.mp (List.append_cancel_left hmid)
    · intro hall
      rw [hkeeps'.mpr (hall.2 t hstep), ← List.append_assoc, hkeeps.mpr hall.1]

end Machine

end UnagiOs
