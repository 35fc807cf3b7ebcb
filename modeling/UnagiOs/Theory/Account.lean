import Mathlib.Data.List.Basic

/-!
# An account of blocks

Blocks are handed out to owners and given back. `Account owned live`: what the owners have is
live, each of it once, and no two owners have the same. Giving fresh blocks to one owner, and
taking back what one owner has, keeps the account.
-/

namespace UnagiOs

variable {ω β : Type} {owned owned' : ω → List β} {live live' l : List β} {t : ω}

/-- The owners have different live blocks. -/
structure Account (owned : ω → List β) (live : List β) : Prop where
  live : ∀ t, ∀ p ∈ owned t, p ∈ live
  nodup : ∀ t, (owned t).Nodup
  apart : ∀ t u, t ≠ u → ∀ p ∈ owned t, p ∉ owned u

namespace Account

/-- Blocks may be live without an owner. -/
theorem mono (h : Account owned live) (hlive : ∀ p ∈ live, p ∈ live') : Account owned live' where
  live t p hp := hlive p (h.live t p hp)
  nodup := h.nodup
  apart := h.apart

/-- One owner gets fresh blocks in place of what it had. -/
theorem give (h : Account owned live) (hself : owned' t = l) (hother : ∀ u ≠ t, owned' u = owned u)
    (hfresh : ∀ p ∈ l, p ∉ live) (hnd : l.Nodup) : Account owned' (live ++ l) := by
  refine ⟨fun u p hp => ?_, fun u => ?_, fun u v huv p hp hpv => ?_⟩
  · by_cases hu : u = t
    · rw [hu, hself] at hp
      exact List.mem_append_right live hp
    · rw [hother u hu] at hp
      exact List.mem_append_left l (h.live u p hp)
  · by_cases hu : u = t
    · rw [hu, hself]
      exact hnd
    · rw [hother u hu]
      exact h.nodup u
  · by_cases hu : u = t
    · have hv : v ≠ t := fun hv => huv (hu.trans hv.symm)
      rw [hu, hself] at hp
      rw [hother v hv] at hpv
      exact hfresh p hp (h.live v p hpv)
    · rw [hother u hu] at hp
      by_cases hv : v = t
      · rw [hv, hself] at hpv
        exact hfresh p hpv (h.live u p hp)
      · rw [hother v hv] at hpv
        exact h.apart u v huv p hp hpv

/-- One owner gives back what it has. -/
theorem take [DecidableEq β] (h : Account owned live) (hself : owned' t = [])
    (hother : ∀ u ≠ t, owned' u = owned u) : Account owned' (live.filter (· ∉ owned t)) := by
  have hkept : ∀ u, ∀ p ∈ owned' u, u ≠ t ∧ p ∈ owned u := by
    intro u p hp
    by_cases hu : u = t
    · rw [hu, hself] at hp
      exact absurd hp List.not_mem_nil
    · exact ⟨hu, hother u hu ▸ hp⟩
  refine ⟨fun u p hp => ?_, fun u => ?_, fun u v huv p hp hpv => ?_⟩
  · obtain ⟨hu, hp⟩ := hkept u p hp
    exact List.mem_filter.mpr ⟨h.live u p hp, by simpa using h.apart u t hu p hp⟩
  · by_cases hu : u = t
    · rw [hu, hself]
      exact List.nodup_nil
    · rw [hother u hu]
      exact h.nodup u
  · exact h.apart u v huv p (hkept u p hp).2 (hkept v p hpv).2

end Account

end UnagiOs
