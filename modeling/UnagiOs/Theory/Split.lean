import Mathlib.Data.List.Basic
import Mathlib.Data.List.Infix
import Mathlib.Data.List.TakeWhile

/-!
# Lists cut at a separator

`words sep l` are the non-empty parts of `l` between the separators. `pieces sep l` is what a
scanner finds that takes the first element of a piece without looking at it: it skips one
separator after each piece, and no more. The two agree iff no two separators are next to each
other, one before the list included (`pieces_eq_words_iff`).
-/

namespace UnagiOs

open List

variable {α : Type} {sep x : α} {l w : List α}

/-- Two separators in a row are not found across another element. -/
theorem infix_cons_ne (hx : x ≠ sep) : [sep, sep] <:+: x :: l ↔ [sep, sep] <:+: l := by
  rw [infix_cons_iff, cons_prefix_cons]
  exact or_iff_right fun h => hx h.1.symm

theorem infix_append (hw : sep ∉ w) : [sep, sep] <:+: w ++ l ↔ [sep, sep] <:+: l := by
  induction w with
  | nil => rfl
  | cons x w ih =>
    rw [mem_cons, not_or] at hw
    rw [cons_append, infix_cons_ne (Ne.symm hw.1), ih hw.2]

/-- Nor behind a separator that another element follows. -/
theorem infix_sep_cons (hx : x ≠ sep) :
    [sep, sep] <:+: sep :: x :: l ↔ [sep, sep] <:+: x :: l := by
  rw [infix_cons_iff, cons_prefix_cons, cons_prefix_cons]
  exact or_iff_right fun h => hx h.2.1.symm

/-- No part has a separator in it. -/
theorem mem_splitOnP {p : α → Bool} (h : w ∈ l.splitOnP p) : ∀ y ∈ w, p y = false := by
  induction l generalizing w with
  | nil =>
    rw [splitOnP_nil, mem_singleton] at h
    exact fun y hy => by rw [h] at hy; cases hy
  | cons x l ih =>
    rw [splitOnP_cons_eq_if_modifyHead] at h
    by_cases hx : p x = true
    · rw [if_pos hx, mem_cons] at h
      rcases h with rfl | h
      · exact fun y hy => by cases hy
      · exact ih h
    · rw [if_neg hx] at h
      cases hsplit : l.splitOnP p with
      | nil =>
        rw [hsplit] at h
        cases h
      | cons v vs =>
        rw [hsplit, modifyHead_cons, mem_cons] at h
        rw [hsplit] at ih
        rcases h with rfl | h
        · intro y hy
          rcases mem_cons.mp hy with rfl | hy
          · exact Bool.eq_false_iff.mpr hx
          · exact ih mem_cons_self y hy
        · exact ih (mem_cons_of_mem v h)

/-- An element that is no separator is put at the end of the last part. -/
theorem splitOnP_concat {p : α → Bool} (hx : p x = false) (l : List α) :
    ∃ parts w, l.splitOnP p = parts ++ [w] ∧ (l ++ [x]).splitOnP p = parts ++ [w ++ [x]] := by
  induction l with
  | nil =>
    refine ⟨[], [], splitOnP_nil, ?_⟩
    rw [nil_append, splitOnP_cons_eq_if_modifyHead, if_neg (by simp [hx]),
      splitOnP_nil]
    rfl
  | cons y l ih =>
    obtain ⟨parts, w, hl, hconcat⟩ := ih
    rw [cons_append, splitOnP_cons_eq_if_modifyHead, hl,
      splitOnP_cons_eq_if_modifyHead, hconcat]
    by_cases hy : p y = true
    · rw [if_pos hy, if_pos hy]
      exact ⟨[] :: parts, w, rfl, rfl⟩
    · rw [if_neg hy, if_neg hy]
      cases parts with
      | nil => exact ⟨[], y :: w, rfl, rfl⟩
      | cons v vs => exact ⟨(y :: v) :: vs, w, rfl, rfl⟩

variable [DecidableEq α]

/-- The non-empty parts between the separators. -/
def words (sep : α) (l : List α) : List (List α) := (l.splitOnP (· == sep)).filter (· ≠ [])

/-- The first element and what follows it up to a separator; the separator is skipped. -/
def pieces (sep : α) : List α → List (List α)
  | [] => []
  | x :: l =>
    (x :: l.takeWhile (· ≠ sep)) :: pieces sep (l.dropWhile (· ≠ sep)).tail
termination_by l => l.length
decreasing_by
  have hdrop := (dropWhile_suffix (· ≠ sep) (l := l)).length_le
  rw [length_tail, length_cons]
  omega

theorem pieces_nil (sep : α) : pieces sep [] = [] := by rw [pieces]

theorem pieces_cons (sep x : α) (l : List α) : pieces sep (x :: l) =
    (x :: l.takeWhile (· ≠ sep)) :: pieces sep (l.dropWhile (· ≠ sep)).tail := by rw [pieces]

/-- Every piece takes an element at least. -/
theorem length_pieces_le (sep : α) (l : List α) : (pieces sep l).length ≤ l.length := by
  fun_induction pieces sep l with
  | case1 => exact Nat.le_refl 0
  | case2 x l ih =>
    have hdrop := (dropWhile_suffix (· ≠ sep) (l := l)).length_le
    rw [length_tail] at ih
    rw [length_cons, length_cons]
    omega

theorem words_nil (sep : α) : words sep [] = [] := rfl

theorem words_of_not_mem (hl : sep ∉ l) (hne : l ≠ []) : words sep l = [l] := by
  have hsplit : l.splitOnP (· == sep) = [l] :=
    splitOnP_eq_singleton fun y hy => by
      rw [beq_eq_false_iff_ne]
      rintro rfl
      exact hl hy
  simp [words, hsplit, hne]

theorem words_append (hw : sep ∉ w) (hne : w ≠ []) :
    words sep (w ++ sep :: l) = w :: words sep l := by
  have hsplit : (w ++ sep :: l).splitOnP (· == sep) = w :: l.splitOnP (· == sep) :=
    splitOnP_append_cons_of_forall_mem (fun y hy => by
      rw [beq_eq_false_iff_ne]
      rintro rfl
      exact hw hy) sep (by simp) l
  simp [words, hsplit, hne]

theorem mem_words (h : w ∈ words sep l) : sep ∉ w := by
  intro hmem
  have hfalse := mem_splitOnP (mem_of_mem_filter h) sep hmem
  simp at hfalse

theorem takeWhile_ne (hw : sep ∉ w) : (w ++ sep :: l).takeWhile (· ≠ sep) = w := by
  rw [takeWhile_append_of_pos fun y hy => by
    rw [decide_eq_true_eq]
    rintro rfl
    exact hw hy]
  simp

theorem dropWhile_ne (hw : sep ∉ w) : (w ++ sep :: l).dropWhile (· ≠ sep) = sep :: l := by
  rw [dropWhile_append_of_pos fun y hy => by
    rw [decide_eq_true_eq]
    rintro rfl
    exact hw hy]
  simp

/-- **The pieces are the words iff** no two separators are next to each other. -/
theorem pieces_eq_words_iff (sep : α) (l : List α) :
    pieces sep l = words sep l ↔ ¬ [sep, sep] <:+: sep :: l := by
  induction hn : l.length using Nat.strong_induction_on generalizing l with
  | _ n ih =>
    cases l with
    | nil =>
      rw [pieces_nil, words_nil]
      simp [infix_cons_iff]
    | cons x l =>
      by_cases hx : x = sep
      · -- the separator is taken into a piece
        subst hx
        refine iff_of_false (fun heq => ?_) (not_not_intro ⟨[], l, rfl⟩)
        have hmem : (x :: l.takeWhile (· ≠ x)) ∈ words x (x :: l) := by
          rw [← heq, pieces_cons]
          exact mem_cons_self
        exact mem_words hmem mem_cons_self
      rw [pieces_cons, infix_sep_cons hx]
      by_cases hl : sep ∈ l
      · obtain ⟨w, m, rfl, hw⟩ := eq_append_cons_of_mem hl
        have hxw : sep ∉ x :: w := by
          rw [mem_cons, not_or]
          exact ⟨Ne.symm hx, hw⟩
        have hlt : m.length < n := by
          rw [← hn, length_cons, length_append, length_cons]
          omega
        rw [takeWhile_ne hw, dropWhile_ne hw, tail_cons, ← cons_append,
          words_append hxw (cons_ne_nil x w), infix_append hxw, ← ih m.length hlt m rfl]
        exact cons_inj_right (x :: w)
      · have hxl : sep ∉ x :: l := by
          rw [mem_cons, not_or]
          exact ⟨Ne.symm hx, hl⟩
        have hall : ∀ y ∈ l, decide (y ≠ sep) = true := fun y hy => by
          rw [decide_eq_true_eq]
          rintro rfl
          exact hl hy
        rw [takeWhile_eq_self_iff.mpr hall, dropWhile_eq_nil_iff.mpr hall, tail_nil,
          pieces_nil, words_of_not_mem hxl (cons_ne_nil x l)]
        exact iff_of_true rfl fun hin => hxl (hin.subset mem_cons_self)

end UnagiOs
