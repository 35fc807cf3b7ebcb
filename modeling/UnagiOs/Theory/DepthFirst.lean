import Mathlib.Data.List.Nodup
import Mathlib.Logic.Relation

/-!
# Depth-first listings

A graph is given by the list of the children of each node.

- `DepthFirst children xs l whole`: `l` lists the nodes under `xs`, each node followed by what is
  under it. A listing that is not `whole` was stopped somewhere.
- `DepthFirst.mem_iff`: a whole listing has the nodes under `xs` and no others.
- `Forest children roots`: no node under the roots has two parents, and the roots have none.
  `Forest.nodup`: a listing of a forest, stopped or not, has no node twice.
-/

namespace UnagiOs

open List

variable {α : Type}

/-- The nodes under `xs` in depth-first order, all of them or up to some node. -/
inductive DepthFirst (children : α → List α) : List α → List α → Bool → Prop
  | nil : DepthFirst children [] [] true
  | stop (xs : List α) : DepthFirst children xs [] false
  | down {x : α} {xs l : List α} (hdown : DepthFirst children (children x) l false) :
      DepthFirst children (x :: xs) (x :: l) false
  | next {x : α} {xs l l' : List α} {whole : Bool}
      (hdown : DepthFirst children (children x) l true)
      (hnext : DepthFirst children xs l' whole) :
      DepthFirst children (x :: xs) (x :: (l ++ l')) whole

/-- `y` is `x` or comes under it. -/
def Below (children : α → List α) (x y : α) : Prop :=
  Relation.ReflTransGen (fun a b => b ∈ children a) x y

/-- `y` is one of the roots or comes under one. -/
def Under (children : α → List α) (roots : List α) (y : α) : Prop :=
  ∃ x ∈ roots, Below children x y

variable {children : α → List α} {roots xs l : List α} {whole : Bool} {a b p x y z : α}

theorem Below.refl (x : α) : Below children x x := Relation.ReflTransGen.refl

theorem Below.of_child (hy : y ∈ children x) (h : Below children y z) : Below children x z :=
  Relation.ReflTransGen.head hy h

theorem Under.below (h : Under children roots x) (hxy : Below children x y) :
    Under children roots y := by
  obtain ⟨r, hr, hrx⟩ := h
  exact ⟨r, hr, Relation.ReflTransGen.trans hrx hxy⟩

theorem Under.child (h : Under children roots x) (hy : y ∈ children x) :
    Under children roots y :=
  h.below (Relation.ReflTransGen.single hy)

namespace DepthFirst

/-- One listing after the other. -/
theorem append {ys l' : List α} (h : DepthFirst children xs l true)
    (h' : DepthFirst children ys l' whole) : DepthFirst children (xs ++ ys) (l ++ l') whole := by
  generalize hw : true = w at h
  induction h with
  | nil => exact h'
  | stop xs => cases hw
  | down _ _ => cases hw
  | @next x xs l₁ l₂ w hdown _ _ ihnext =>
    rw [cons_append, cons_append, append_assoc]
    exact .next hdown (ihnext hw)

/-- A listing that was stopped does not get to what comes behind. -/
theorem append_stopped (h : DepthFirst children xs l false) (ys : List α) :
    DepthFirst children (xs ++ ys) l false := by
  generalize hw : false = w at h
  induction h with
  | nil => cases hw
  | stop xs => exact .stop (xs ++ ys)
  | down hdown _ => exact .down hdown
  | next hdown _ _ ihnext => exact .next hdown (ihnext hw)

/-- What is listed is under the nodes the listing started from. -/
theorem under (h : DepthFirst children xs l whole) (hy : y ∈ l) : Under children xs y := by
  induction h with
  | nil => cases hy
  | stop xs => cases hy
  | @down x xs l _ ih =>
    rcases mem_cons.mp hy with rfl | hy
    · exact ⟨y, mem_cons_self, .refl y⟩
    · obtain ⟨c, hc, hcy⟩ := ih hy
      exact ⟨x, mem_cons_self, .of_child hc hcy⟩
  | @next x xs l l' whole _ _ ihdown ihnext =>
    rcases mem_cons.mp hy with rfl | hy
    · exact ⟨y, mem_cons_self, .refl y⟩
    rcases mem_append.mp hy with hy | hy
    · obtain ⟨c, hc, hcy⟩ := ihdown hy
      exact ⟨x, mem_cons_self, .of_child hc hcy⟩
    · obtain ⟨r, hr, hry⟩ := ihnext hy
      exact ⟨r, mem_cons_of_mem x hr, hry⟩

/-- A whole listing starts with all of `xs` and leaves out no child. -/
theorem closed (h : DepthFirst children xs l true) :
    xs ⊆ l ∧ ∀ x ∈ l, children x ⊆ l := by
  generalize hw : true = w at h
  induction h with
  | nil => exact ⟨List.Subset.refl _, nofun⟩
  | stop xs => cases hw
  | down _ _ => cases hw
  | @next x xs l l' whole _ _ ihdown ihnext =>
    obtain ⟨hroots, hclosed⟩ := ihdown rfl
    obtain ⟨hroots', hclosed'⟩ := ihnext hw
    have hl : l ⊆ x :: (l ++ l') := fun y hy =>
      mem_cons_of_mem x (mem_append_left l' hy)
    have hl' : l' ⊆ x :: (l ++ l') := fun y hy =>
      mem_cons_of_mem x (mem_append_right l hy)
    constructor
    · exact cons_subset_cons x fun y hy => mem_append_right l (hroots' hy)
    · intro y hy
      rcases mem_cons.mp hy with rfl | hy
      · exact List.Subset.trans hroots hl
      rcases mem_append.mp hy with hy | hy
      · exact List.Subset.trans (hclosed y hy) hl
      · exact List.Subset.trans (hclosed' y hy) hl'

/-- **A whole listing has exactly the nodes under the ones it started from.** -/
theorem mem_iff (h : DepthFirst children xs l true) : y ∈ l ↔ Under children xs y := by
  constructor
  · exact h.under
  · rintro ⟨x, hx, hxy⟩
    obtain ⟨hroots, hclosed⟩ := h.closed
    induction hxy with
    | refl => exact hroots hx
    | tail _ hchild ih => exact hclosed _ ih hchild

end DepthFirst

/-! ## Forests -/

/-- Under the roots, no node comes from two places. -/
structure Forest (children : α → List α) (roots : List α) : Prop where
  roots_nodup : roots.Nodup
  children_nodup : ∀ x, Under children roots x → (children x).Nodup
  parent_unique : ∀ x x' y, Under children roots x → Under children roots x' →
    y ∈ children x → y ∈ children x' → x = x'
  root_parentless : ∀ x y, Under children roots x → y ∈ children x → y ∉ roots

/-- Nothing comes under two of the nodes. -/
def Apart (children : α → List α) (xs : List α) : Prop :=
  xs.Pairwise fun a b => ∀ z, Below children a z → ¬ Below children b z

namespace Forest

variable (h : Forest children roots)
include h

/-- No node comes under one of its own children. -/
theorem not_below_self (hx : Under children roots x) :
    ¬ Relation.TransGen (fun a b => b ∈ children a) x x := by
  obtain ⟨r, hr, hrx⟩ := hx
  -- along the way from the root: a cycle at a node goes through its one parent
  induction hrx with
  | refl =>
    intro hcycle
    obtain ⟨q, hrq, hq⟩ := Relation.TransGen.tail'_iff.mp hcycle
    exact h.root_parentless q r ⟨r, hr, hrq⟩ hq hr
  | @tail b c hrb hbc ih =>
    intro hcycle
    obtain ⟨q, hcq, hq⟩ := Relation.TransGen.tail'_iff.mp hcycle
    have hb : Under children roots b := ⟨r, hr, hrb⟩
    have heq : q = b := h.parent_unique q b c ((hb.child hbc).below hcq) hb hq hbc
    subst heq
    exact ih (Relation.TransGen.head' hbc hcq)

/-- Of two nodes above a third, one is above the other. -/
theorem below_total (ha : Under children roots a) (hb : Under children roots b)
    (haz : Below children a z) (hbz : Below children b z) :
    Below children a b ∨ Below children b a := by
  induction haz with
  | refl => exact .inr hbz
  | @tail c z hac hcz ih =>
    rcases Relation.ReflTransGen.cases_tail hbz with rfl | ⟨d, hbd, hdz⟩
    · exact .inl (Relation.ReflTransGen.tail hac hcz)
    · have heq : d = c := h.parent_unique d c z (hb.below hbd) (ha.below hac) hdz hcz
      subst heq
      exact ih hbd

theorem apart_of_not_below (hnodup : xs.Nodup) (hxs : ∀ x ∈ xs, Under children roots x)
    (hnot : ∀ a ∈ xs, ∀ b ∈ xs, a ≠ b → ¬ Below children a b) : Apart children xs := by
  refine hnodup.imp_of_mem fun {a b} ha hb hne z haz hbz => ?_
  rcases h.below_total (hxs a ha) (hxs b hb) haz hbz with hab | hba
  · exact hnot a ha b hb hne hab
  · exact hnot b hb a ha hne.symm hba

theorem apart_roots : Apart children roots := by
  refine h.apart_of_not_below h.roots_nodup (fun x hx => ⟨x, hx, .refl x⟩) ?_
  intro a ha b hb hne hab
  rcases Relation.ReflTransGen.cases_tail hab with heq | ⟨c, hac, hc⟩
  · exact hne heq.symm
  · exact h.root_parentless c b ⟨a, ha, hac⟩ hc hb

theorem apart_children (hp : Under children roots p) : Apart children (children p) := by
  refine h.apart_of_not_below (h.children_nodup p hp) (fun x hx => hp.child hx) ?_
  intro a ha b hb hne hab
  rcases Relation.ReflTransGen.cases_tail hab with heq | ⟨c, hac, hc⟩
  · exact hne heq.symm
  · have heq : c = p := h.parent_unique c p b ((hp.child ha).below hac) hp hc hb
    subst heq
    exact h.not_below_self hp (Relation.TransGen.head' ha hac)

/-- What is listed under the children of a node is not the node. -/
theorem not_mem_down (hx : Under children roots x) (hl : DepthFirst children (children x) l whole) :
    x ∉ l := by
  intro hmem
  obtain ⟨c, hc, hcx⟩ := hl.under hmem
  exact h.not_below_self hx (Relation.TransGen.head' hc hcx)

/-- By induction on the listing: what is behind its first node is apart from the rest. -/
theorem nodup_of_apart (hl : DepthFirst children xs l whole)
    (hxs : ∀ x ∈ xs, Under children roots x) (hapart : Apart children xs) : l.Nodup := by
  induction hl with
  | nil => exact nodup_nil
  | stop xs => exact nodup_nil
  | @down x xs l hdown ih =>
    have hx := hxs x mem_cons_self
    have hl : l.Nodup := ih (fun y hy => hx.child hy) (h.apart_children hx)
    exact nodup_cons.mpr ⟨h.not_mem_down hx hdown, hl⟩
  | @next x xs l l' whole hdown hnext ihdown ihnext =>
    have hx := hxs x mem_cons_self
    obtain ⟨hfar, hrest⟩ := pairwise_cons.mp hapart
    have hl : l.Nodup := ihdown (fun y hy => hx.child hy) (h.apart_children hx)
    have hl' : l'.Nodup := ihnext (fun y hy => hxs y (mem_cons_of_mem x hy)) hrest
    -- the other siblings list nothing that is under this one
    have hother : ∀ y, Below children x y → y ∉ l' := by
      intro y hxy hy
      obtain ⟨r, hr, hry⟩ := hnext.under hy
      exact hfar r hr y hxy hry
    have hdisj : l.Disjoint l' := by
      intro y hy
      obtain ⟨c, hc, hcy⟩ := hdown.under hy
      exact hother y (.of_child hc hcy)
    have hmem : x ∉ l ++ l' := by
      intro hmem
      rcases mem_append.mp hmem with hmem | hmem
      · exact h.not_mem_down hx hdown hmem
      · exact hother x (.refl x) hmem
    exact nodup_cons.mpr ⟨hmem, hl.append hl' hdisj⟩

/-- **A listing of a forest lists no node twice**, whether or not it was stopped. -/
theorem nodup (hl : DepthFirst children roots l whole) : l.Nodup :=
  h.nodup_of_apart hl (fun x hx => ⟨x, hx, .refl x⟩) h.apart_roots

end Forest

end UnagiOs
