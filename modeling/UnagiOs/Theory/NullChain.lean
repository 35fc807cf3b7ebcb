import Mathlib.Data.Fintype.EquivFin
import Mathlib.Data.List.Basic
import Mathlib.Logic.Function.Iterate

/-!
# Chains that end at a null link

A singly linked chain is a function `next` on links, followed from some link up to `null`.

- `NullChain next null x l`: the links met from `x` on are `l`, and `null` comes after them. There
  is one such list at most, and no link is met twice: a chain that comes back to a link never ends.
  `exists_nullChain_iff`: with finitely many links, every other chain ends.
- `follow`: the loop that visits the links of a chain. `follow_eq_some_iff`: it ends exactly on
  chains that end, and it has then visited their members in order.
-/

namespace UnagiOs

variable {α σ : Type}

/-- From `x` on, `next` leads through the members of the list and then to `null`. -/
def NullChain (next : α → α) (null : α) : α → List α → Prop
  | x, [] => x = null
  | x, y :: l => x = y ∧ y ≠ null ∧ NullChain next null (next y) l

/-- `while (x) { visit(x); x = next(x); }`, stuck if it does not end within `n` rounds. -/
def follow [DecidableEq α] (next : α → α) (null : α) (visit : σ → α → σ) :
    Nat → α → σ → Option σ
  | 0, _, _ => none
  | n + 1, x, s => if x = null then some s else follow next null visit n (next x) (visit s x)

namespace NullChain

variable {next next' : α → α} {null x y : α} {l l' : List α}

section Chain

variable (h : NullChain next null x l)
include h

theorem ne_null : ∀ y ∈ l, y ≠ null := by
  induction l generalizing x with
  | nil => simp
  | cons z l ih =>
    intro y hy
    rcases List.mem_cons.mp hy with rfl | hy
    · exact h.2.1
    · exact ih h.2.2 y hy

/-- The links from a link on are determined. -/
theorem unique (h' : NullChain next null x l') : l = l' := by
  induction l generalizing x l' with
  | nil =>
    cases l' with
    | nil => rfl
    | cons y l' => exact absurd (h'.1.symm.trans h) h'.2.1
  | cons y l ih =>
    cases l' with
    | nil => exact absurd (h.1.symm.trans h') h.2.1
    | cons y' l' =>
      obtain ⟨rfl, -, hrest⟩ := h
      obtain ⟨rfl, -, hrest'⟩ := h'
      rw [ih hrest hrest']

/-- The part of a chain from one of its members on. -/
theorem exists_suffix (hy : y ∈ l) : ∃ l', NullChain next null y l' ∧ l'.length ≤ l.length := by
  induction l generalizing x with
  | nil => cases hy
  | cons z l ih =>
    rcases List.mem_cons.mp hy with rfl | hy
    · exact ⟨y :: l, ⟨rfl, h.2⟩, Nat.le_refl _⟩
    · obtain ⟨l', hl', hlen⟩ := ih h.2.2 hy
      exact ⟨l', hl', Nat.le_succ_of_le hlen⟩

/-- No link is met twice. -/
theorem nodup : l.Nodup := by
  induction l generalizing x with
  | nil => exact List.nodup_nil
  | cons y l ih =>
    refine List.nodup_cons.mpr ⟨fun hy => ?_, ih h.2.2⟩
    -- the chain from the second time on would be as long as the chain from the first time on
    obtain ⟨l', hl', hlen⟩ := h.2.2.exists_suffix hy
    have heq : l' = y :: l := hl'.unique ⟨rfl, h.2⟩
    rw [heq, List.length_cons] at hlen
    exact absurd hlen (Nat.not_succ_le_self _)

/-- A chain only depends on the links of its members. -/
theorem congr (hnext : ∀ y ∈ l, next' y = next y) : NullChain next' null x l := by
  induction l generalizing x with
  | nil => exact h
  | cons y l ih =>
    refine ⟨h.1, h.2.1, ?_⟩
    rw [hnext y List.mem_cons_self]
    exact ih h.2.2 fun z hz => hnext z (List.mem_cons_of_mem y hz)

end Chain

/-- A new link behind the last one. -/
theorem snoc [DecidableEq α] (h : NullChain next null x (l ++ [y])) {z : α} (hz : z ≠ null)
    (hself : next' z = null) (hlast : next' y = z) (hother : ∀ w ∈ l, next' w = next w) :
    NullChain next' null x (l ++ [y, z]) := by
  induction l generalizing x with
  | nil =>
    refine ⟨h.1, h.2.1, hlast, hz, hself⟩
  | cons w l ih =>
    refine ⟨h.1, h.2.1, ?_⟩
    rw [hother w List.mem_cons_self]
    exact ih h.2.2 fun v hv => hother v (List.mem_cons_of_mem w hv)

end NullChain

section Ends

variable {next : α → α} {null x : α}

theorem exists_nullChain_iff_iterate :
    (∃ l, NullChain next null x l) ↔ ∃ k, next^[k] x = null := by
  constructor
  · rintro ⟨l, hl⟩
    induction l generalizing x with
    | nil => exact ⟨0, hl⟩
    | cons y l ih =>
      obtain ⟨rfl, -, hrest⟩ := hl
      obtain ⟨k, hk⟩ := ih hrest
      exact ⟨k + 1, hk⟩
  · rintro ⟨k, hk⟩
    induction k generalizing x with
    | zero => exact ⟨[], hk⟩
    | succ k ih =>
      by_cases hx : x = null
      · exact ⟨[], hx⟩
      · obtain ⟨l, hl⟩ := ih hk
        exact ⟨x :: l, rfl, hx, hl⟩

/-- **A chain of finitely many links ends unless it comes back to a link.** -/
theorem exists_nullChain_iff [Finite α] : (∃ l, NullChain next null x l) ↔
    ∀ j, (∀ k ≤ j, next^[k] x ≠ null) → ∀ i < j, next^[i] x ≠ next^[j] x := by
  classical
  rw [exists_nullChain_iff_iterate]
  constructor
  · intro hends j hj i hij heq
    -- the first null link would come once before
    have hnull := Nat.find_spec hends
    have hlt : j < Nat.find hends := by
      by_contra hle
      exact hj _ (not_lt.mp hle) hnull
    refine Nat.find_min hends (m := Nat.find hends - j + i) (by omega) ?_
    rw [Function.iterate_add_apply, heq, ← Function.iterate_add_apply,
      Nat.sub_add_cancel (Nat.le_of_lt hlt)]
    exact hnull
  · intro hfresh
    by_contra hnever
    have hnever : ∀ k, next^[k] x ≠ null := fun k hk => hnever ⟨k, hk⟩
    refine not_injective_infinite_finite (fun k => next^[k] x) fun i j heq => ?_
    rcases Nat.lt_trichotomy i j with hij | hij | hij
    · exact absurd heq (hfresh j (fun k _ => hnever k) i hij)
    · exact hij
    · exact absurd heq.symm (hfresh i (fun k _ => hnever k) j hij)

end Ends

section Follow

variable [DecidableEq α] {next : α → α} {null : α} {visit : σ → α → σ}

/-- **The loop ends exactly on the chains that end**, and has then visited their members. -/
theorem follow_eq_some_iff {n : Nat} {x : α} {s r : σ} :
    follow next null visit n x s = some r ↔
      ∃ l, NullChain next null x l ∧ l.length < n ∧ l.foldl visit s = r := by
  induction n generalizing x s with
  | zero =>
    constructor
    · intro h
      cases h
    · rintro ⟨l, -, hlen, -⟩
      cases hlen
  | succ n ih =>
    rw [follow]
    by_cases hx : x = null
    · rw [if_pos hx]
      constructor
      · intro h
        exact ⟨[], hx, Nat.succ_pos n, Option.some.inj h⟩
      · rintro ⟨l, hl, -, hr⟩
        cases l with
        | nil => exact congrArg some hr
        | cons y l => exact absurd (hl.1.symm.trans hx) hl.2.1
    · rw [if_neg hx, ih]
      constructor
      · rintro ⟨l, hl, hlen, hr⟩
        exact ⟨x :: l, ⟨rfl, hx, hl⟩, Nat.succ_lt_succ hlen, hr⟩
      · rintro ⟨l, hl, hlen, hr⟩
        cases l with
        | nil => exact absurd hl hx
        | cons y l =>
          obtain ⟨rfl, -, hrest⟩ := hl
          exact ⟨l, hrest, Nat.lt_of_succ_lt_succ hlen, hr⟩

end Follow

end UnagiOs
