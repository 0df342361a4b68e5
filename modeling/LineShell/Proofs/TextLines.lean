import LineShell.Proofs.TextPieces
import LineShell.Text.Lines

/-!
The lines of a text that was written as lines. They come back as they were, but for one
carriage return at the end of a line, which is taken for a part of the line's end. A text
has one line for each line feed in it, and one more where something is left behind the
last of them.
-/

namespace LineShell.Text

private theorem linesOfPieces_concat_nil (lines : List Text) :
    linesOfPieces (lines ++ [[]]) = lines.map dropReturn := by
  induction lines with
  | nil => rfl
  | cons line rest ih =>
      rw [List.map_cons, ← ih]
      cases rest <;> rfl

private theorem split_unlines {lines : List Text} (hplain : ∀ line ∈ lines, '\n' ∉ line) :
    (unlines lines).split '\n' = lines ++ [[]] := by
  induction lines with
  | nil => rfl
  | cons line rest ih =>
      have hline : '\n' ∉ line := hplain line List.mem_cons_self
      have hrest := ih fun other hother => hplain other (List.mem_cons_of_mem _ hother)
      have hcons : unlines (line :: rest) = line ++ '\n' :: unlines rest := by
        simp [unlines]
      rw [hcons, split_append_mark hline, hrest]
      rfl

/-- What is read of lines that were written. -/
theorem lines_unlines {lines : List Text} (hplain : ∀ line ∈ lines, '\n' ∉ line) :
    Text.lines (unlines lines) = lines.map dropReturn := by
  rw [Text.lines, split_unlines hplain, linesOfPieces_concat_nil]

private theorem dropReturn_eq_self_iff (line : Text) :
    dropReturn line = line ↔ line.getLast? ≠ some '\r' := by
  unfold dropReturn
  split
  · rename_i hreturn
    have hshorter : line.dropLast.length ≠ line.length := by
      cases line with
      | nil => cases hreturn
      | cons c rest => simp
    simp only [hreturn, ne_eq, not_true_eq_false, iff_false]
    exact fun hsame => hshorter (congrArg List.length hsame)
  · rename_i hother
    simp [hother]

/-- Lines come back as they were exactly where none of them ends in a carriage return. -/
theorem map_dropReturn_eq_self_iff (lines : List Text) :
    lines.map dropReturn = lines ↔ ∀ line ∈ lines, line.getLast? ≠ some '\r' := by
  have hmap := List.map_eq_map_iff (f := dropReturn) (g := id) (l := lines)
  simpa only [List.map_id, id, dropReturn_eq_self_iff] using hmap

private theorem length_linesOfPieces {pieces : List Text} (hne : pieces ≠ []) :
    (linesOfPieces pieces).length + 1 =
      pieces.length + if pieces.getLast? = some [] then 0 else 1 := by
  induction pieces with
  | nil => exact absurd rfl hne
  | cons piece rest ih =>
      cases rest with
      | nil => cases piece <;> rfl
      | cons next more =>
          have hrest := ih (List.cons_ne_nil _ _)
          simp only [linesOfPieces, List.length_cons, List.getLast?_cons_cons] at hrest ⊢
          omega

/-- A text ends in an empty piece if it is empty, or if it ends in the mark. -/
theorem getLast?_split_eq_nil_iff (mark : Char) (text : Text) :
    (text.split mark).getLast? = some [] ↔ text = [] ∨ text.getLast? = some mark := by
  induction text using List.reverseRecOn with
  | nil => simp [split]
  | append_singleton front last _ =>
      by_cases hlast : last = mark
      · simp [hlast, split_concat_mark]
      · simp [hlast, getLast?_split_concat hlast front]

/-- How many lines a text has. -/
theorem length_lines (text : Text) :
    (Text.lines text).length =
      text.count '\n' + if text ≠ [] ∧ text.getLast? ≠ some '\n' then 1 else 0 := by
  have hlength := length_linesOfPieces (split_ne_nil '\n' text)
  rw [length_split] at hlength
  simp only [getLast?_split_eq_nil_iff] at hlength
  rw [Text.lines]
  by_cases hended : text = [] ∨ text.getLast? = some '\n'
  · rw [if_pos hended] at hlength
    rw [if_neg (by tauto)]
    omega
  · rw [if_neg hended] at hlength
    rw [if_pos (by tauto)]
    omega

private theorem mem_of_mem_dropReturn {c : Char} {line : Text} (h : c ∈ dropReturn line) :
    c ∈ line := by
  unfold dropReturn at h
  split at h
  · exact List.dropLast_subset line h
  · exact h

private theorem notMem_of_mem_linesOfPieces {mark : Char} {pieces : List Text} {line : Text}
    (hfree : ∀ piece ∈ pieces, mark ∉ piece) (h : line ∈ linesOfPieces pieces) : mark ∉ line := by
  induction pieces with
  | nil => cases h
  | cons piece rest ih =>
      cases rest with
      | nil =>
          rw [linesOfPieces] at h
          split at h
          · cases h
          · obtain rfl := List.mem_singleton.mp h
            exact hfree line List.mem_cons_self
      | cons next more =>
          rw [linesOfPieces] at h
          rcases List.mem_cons.mp h with rfl | hrest
          · exact fun hmark => hfree piece List.mem_cons_self (mem_of_mem_dropReturn hmark)
          · exact ih (fun other hother => hfree other (List.mem_cons_of_mem _ hother)) hrest

/-- No line holds a line feed. -/
theorem notMem_of_mem_lines {text line : Text} (h : line ∈ Text.lines text) : '\n' ∉ line :=
  notMem_of_mem_linesOfPieces (fun _ hpiece => not_mem_of_mem_split hpiece) h

end LineShell.Text
