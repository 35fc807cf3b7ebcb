import Mathlib.Data.List.Basic
import Mathlib.Data.List.Infix

/-!
# Computations that take typed elements from a list

A computation `Takes` elements of the types `ts` when it has a result exactly if they stand at the
beginning of its list, and leaves the rest of the list. Two of them in sequence take the types of
both.
-/

namespace UnagiOs

open List

variable {α τ ρ σ : Type*} {ty : α → τ} {ts ts' : List τ} {l : List α}

/-- `r`, which was computed from `l`, takes elements of the types `ts` from it. -/
def Takes (ty : α → τ) (ts : List τ) (l : List α) (rest : ρ → List α) (r : Option ρ) : Prop :=
  (ts <+: l.map ty ∧ ∃ a, r = some a ∧ rest a = l.drop ts.length) ∨ (¬ ts <+: l.map ty ∧ r = none)

theorem append_isPrefix_iff {ts ts' l : List τ} :
    ts ++ ts' <+: l ↔ ts <+: l ∧ ts' <+: l.drop ts.length := by
  constructor
  · rintro ⟨u, rfl⟩
    rw [append_assoc, drop_left]
    exact ⟨prefix_append _ _, prefix_append _ _⟩
  · rintro ⟨⟨u, rfl⟩, h⟩
    rw [drop_left] at h
    obtain ⟨v, rfl⟩ := h
    rw [← append_assoc]
    exact prefix_append _ _

namespace Takes

variable {rest : ρ → List α} {rest' : σ → List α} {r : Option ρ} {a : α} {t : τ}

theorem nothing {a : ρ} (h : rest a = l) : Takes ty [] l rest (some a) :=
  Or.inl ⟨List.nil_prefix, a, rfl, h⟩

theorem singleton_isPrefix_iff : [t] <+: (a :: l).map ty ↔ ty a = t := by
  rw [map_cons, cons_prefix_cons]
  exact ⟨fun h => h.1.symm, fun h => ⟨h.symm, List.nil_prefix⟩⟩

theorem one {b : ρ} (ha : ty a = t) (hb : rest b = l) : Takes ty [t] (a :: l) rest (some b) :=
  Or.inl ⟨singleton_isPrefix_iff.mpr ha, b, rfl, hb⟩

/-- The element is missing, or it is of another type. -/
theorem refused (h : ∀ a ∈ l.head?, ty a ≠ t) : Takes ty [t] l rest none := by
  refine Or.inr ⟨fun hpre => ?_, rfl⟩
  cases l with
  | nil => exact absurd hpre.length_le (Nat.not_succ_le_zero 0)
  | cons a l => exact h a rfl (singleton_isPrefix_iff.mp hpre)

/-- One computation, and another one on what it leaves. -/
theorem bind {f : ρ → Option σ} (h : Takes ty ts l rest r)
    (hf : ∀ a, r = some a → Takes ty ts' (rest a) rest' (f a)) :
    Takes ty (ts ++ ts') l rest' (r.bind f) := by
  have happ : ts ++ ts' <+: l.map ty ↔ ts <+: l.map ty ∧ ts' <+: (l.drop ts.length).map ty := by
    rw [append_isPrefix_iff, map_drop]
  rcases h with ⟨hts, a, rfl, hrest⟩ | ⟨hts, rfl⟩
  · have hnext := hf a rfl
    rw [hrest] at hnext
    rcases hnext with ⟨hts', b, hb, hrest'⟩ | ⟨hts', hb⟩
    · refine Or.inl ⟨happ.mpr ⟨hts, hts'⟩, b, hb, ?_⟩
      rw [hrest', drop_drop, length_append]
    · exact Or.inr ⟨fun h => hts' (happ.mp h).2, hb⟩
  · exact Or.inr ⟨fun h => hts (happ.mp h).1, rfl⟩

theorem map {f : ρ → σ} (h : Takes ty ts l rest r) (hf : ∀ a, rest' (f a) = rest a) :
    Takes ty ts l rest' (r.map f) := by
  rcases h with ⟨hts, a, rfl, hrest⟩ | ⟨hts, rfl⟩
  · exact Or.inl ⟨hts, f a, rfl, (hf a).trans hrest⟩
  · exact Or.inr ⟨hts, rfl⟩

end Takes

end UnagiOs
