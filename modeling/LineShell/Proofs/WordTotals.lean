import Mathlib.Algebra.Order.Ring.Nat
import LineShell.Proofs.TextPieces
import LineShell.WordCount

/-!
What the totals count. The words of a line are told by its spaces alone: there is one more
than there are spaces, those at its end apart. The totals over some lines are sums over
these lines, and so they add up where lines are put behind each other.
-/

namespace LineShell

namespace WordCount

/-- How many words a line has: none where there is nothing but spaces in it, and otherwise
one more than there are spaces before its end. -/
def wordsBySpaces (line : Text) : Nat :=
  if line ≠ [] ∧ line.all (· == ' ') then 0
  else 1 + (line.rdropWhile (· == ' ')).count ' '

/-- The pieces of a line between its spaces, without the empty ones at its end. -/
theorem length_pieces (line : Text) :
    ((line.split ' ').rdropWhile List.isEmpty).length =
      if line.rdropWhile (· == ' ') = [] then 0
      else 1 + (line.rdropWhile (· == ' ')).count ' ' := by
  induction line using List.reverseRecOn with
  | nil => rfl
  | append_singleton front last ih =>
      by_cases hlast : last = ' '
      · rw [hlast, Text.split_concat_mark, List.rdropWhile_concat_pos _ _ _ rfl,
          List.rdropWhile_concat_pos _ _ _ (by decide), ih]
      · have hends := Text.getLast?_split_concat hlast front
        have hkept : (Text.split ' ' (front ++ [last])).rdropWhile List.isEmpty =
            Text.split ' ' (front ++ [last]) := by
          rw [List.rdropWhile_eq_self_iff]
          intro hne hempty
          rw [List.getLast?_eq_some_getLast hne, List.isEmpty_iff.mp hempty] at hends
          exact hends rfl
        rw [hkept, Text.length_split, List.rdropWhile_concat_neg _ _ _ (by simpa using hlast),
          if_neg (by simp), Nat.add_comm]

private theorem wordsIn_eq (line : Text) : wordsIn line = wordsBySpaces line := by
  by_cases hspace : ' ' ∈ line
  · have hlength := length_pieces line
    have hblank : line.rdropWhile (· == ' ') = [] ↔ line ≠ [] ∧ line.all (· == ' ') := by
      rw [List.rdropWhile_eq_nil_iff]
      simp [List.ne_nil_of_mem hspace]
    rw [wordsIn, if_pos hspace, wordsBySpaces, ← List.length_reverse]
    simp only [hblank] at hlength
    exact hlength
  · have hfilled : ¬ (line ≠ [] ∧ line.all (· == ' ')) := by
      rintro ⟨hne, hall⟩
      obtain ⟨c, hc⟩ := List.exists_mem_of_ne_nil line hne
      exact hspace (beq_iff_eq.mp (List.all_eq_true.mp hall c hc) ▸ hc)
    have hkept : ' ' ∉ line.rdropWhile (· == ' ') := fun hmem =>
      hspace ((List.rdropWhile_prefix _ _).subset hmem)
    rw [wordsIn, if_neg hspace, wordsBySpaces, if_neg hfilled, List.count_eq_zero.mpr hkept]

/-- The totals over some lines behind those that were there before. -/
theorem foldl_addLine (count : WordCount) (lines : List Text) :
    lines.foldl addLine count =
      { lines := count.lines + lines.length
        words := count.words + (lines.map wordsBySpaces).sum
        chars := count.chars + (lines.map List.length).sum } := by
  induction lines generalizing count with
  | nil => rfl
  | cons line rest ih =>
      simp only [List.foldl_cons, ih, addLine, wordsIn_eq, List.length_cons, List.map_cons,
        List.sum_cons, mk.injEq]
      omega

theorem ofLines_eq (lines : List Text) :
    ofLines lines =
      { lines := lines.length
        words := (lines.map wordsBySpaces).sum
        chars := (lines.map List.length).sum } := by
  rw [ofLines, foldl_addLine]
  simp only [Nat.zero_add]

theorem ofLines_concat (lines : List Text) (line : Text) :
    ofLines (lines ++ [line]) = (ofLines lines).addLine line := by
  rw [ofLines, List.foldl_append]
  rfl

theorem ofLines_append (first second : List Text) :
    ofLines (first ++ second) =
      { lines := (ofLines first).lines + (ofLines second).lines
        words := (ofLines first).words + (ofLines second).words
        chars := (ofLines first).chars + (ofLines second).chars } := by
  simp [ofLines_eq]

end WordCount

end LineShell
