import UnagiOs.Theory.Split

/-!
# The last lines of a text

A display has room for `n` lines of `w` elements. `window` is what it is to show of a text that ends
in the middle of a line: its last lines, the unfinished one included, each cut to the width. As the
text grows, the window either gets one element more or one line more; in the second case the first
line may have to go (`window_concat`, `window_concat_sep`).
-/

namespace UnagiOs

open List

variable {α : Type} [DecidableEq α] {n w : Nat} {sep c : α}

/-- The lines of a text. The last one is what follows the last separator. -/
def lines (sep : α) (text : List α) : List (List α) := text.splitOnP (· == sep)

theorem lines_concat_sep (text : List α) : lines sep (text ++ [sep]) = lines sep text ++ [[]] := by
  rw [lines, splitOnP_append_cons (p := (· == sep)) text [] (beq_self_eq_true sep),
    splitOnP_nil, lines]

/-- The last `n` lines, cut to `w` elements. -/
def window (n w : Nat) (sep : α) (text : List α) : List (List α) :=
  ((lines sep text).drop ((lines sep text).length - n)).map (List.take w)

theorem window_nil (hn : 0 < n) : window n w sep [] = [[]] := by
  have hdrop : 1 - n = 0 := by omega
  rw [window, lines, splitOnP_nil]
  simp [hdrop]

theorem length_window (text : List α) :
    (window n w sep text).length = min n (lines sep text).length := by
  rw [window, length_map, length_drop]
  omega

/-- **A line is ended**, and an empty one takes its place. If there are `n` lines already, the first
one goes. -/
theorem window_concat_sep (hn : 0 < n) (text : List α) :
    window n w sep (text ++ [sep]) =
      (if (window n w sep text).length < n then window n w sep text
        else (window n w sep text).tail) ++ [[]] := by
  rw [length_window, window, window, lines_concat_sep, length_append, length_singleton]
  by_cases hroom : (lines sep text).length < n
  · rw [if_pos (by omega), Nat.sub_eq_zero_of_le hroom, Nat.sub_eq_zero_of_le hroom.le,
      drop_zero, drop_zero, map_append, map_singleton, take_nil]
  · have hnext : (lines sep text).length + 1 - n = (lines sep text).length - n + 1 := by omega
    rw [if_neg (by omega), hnext, drop_append_of_le_length (by omega), map_append,
      ← map_tail, tail_drop, map_singleton, take_nil]

/-- **An element** is put at the end of the last line, if there is room. -/
theorem window_concat (hn : 0 < n) (hc : c ≠ sep) (text : List α) :
    ∃ rows row, window n w sep text = rows ++ [row] ∧
      window n w sep (text ++ [c]) = rows ++ [if row.length < w then row ++ [c] else row] := by
  obtain ⟨parts, line, hlines, hlines'⟩ :=
    splitOnP_concat (p := (· == sep)) (beq_false_of_ne hc) text
  have hwindow : ∀ line : List α, ((parts ++ [line]).drop ((parts ++ [line]).length - n)).map
      (List.take w) = (parts.drop (parts.length + 1 - n)).map (List.take w) ++ [line.take w] := by
    intro line
    rw [length_append, length_singleton, drop_append_of_le_length (by omega),
      map_append, map_singleton]
  refine ⟨(parts.drop (parts.length + 1 - n)).map (List.take w), line.take w, ?_, ?_⟩
  · rw [window, lines, hlines, hwindow]
  · rw [window, lines, hlines', hwindow, length_take]
    by_cases hroom : line.length < w
    · have hfits : (line ++ [c]).length ≤ w := by
        rw [length_append]
        exact hroom
      rw [if_pos (by omega), take_of_length_le hfits, take_of_length_le hroom.le]
    · rw [if_neg (by omega), take_append_of_le_length (by omega)]

end UnagiOs
