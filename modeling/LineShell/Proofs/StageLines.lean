import Mathlib.Data.List.Infix
import LineShell.Proofs.WordTotals
import LineShell.Worker

/-!
What each verb makes of a list of lines, as a function on lists, and that the
filters which take one line at a time compute these functions.
-/

namespace LineShell

namespace Verb

/-- What a verb makes of the lines before it. Sources have none before them and
sinks put them all into the world, so both leave the lines as they are. -/
def passes : Verb → List Text → List Text
  | .grep query, lines => lines.filter fun line => query <:+: line
  | .uniq, lines => lines.eraseDups
  | .head, lines => lines.take 10
  | .tail, lines => lines.drop (lines.length - 10)
  | .wc, lines =>
    [Text.ofNat lines.length ++
      ' ' :: Text.ofNat (lines.map WordCount.wordsBySpaces).sum ++
      ' ' :: Text.ofNat (lines.map List.length).sum]
  | _, lines => lines

/-- What a row of verbs makes of the lines before it. -/
def passAll (verbs : List Verb) (lines : List Text) : List Text :=
  verbs.foldl (fun lines verb => verb.passes lines) lines

end Verb

namespace Filter

private theorem run_matching (query : Text) (lines : List Text) :
    (matching query).run lines = Verb.passes (.grep query) lines := by
  induction lines with
  | nil => rfl
  | cons line rest ih =>
      by_cases hmatch : query <:+: line
      · have hoccurs : query.occursIn line = true := (Text.occursIn_iff query line).mpr hmatch
        simp only [run, isFull, take, hoccurs, ih, Verb.passes]
        simp [hmatch]
      · have hoccurs : query.occursIn line = false := by
          rw [Bool.eq_false_iff, ne_eq, Text.occursIn_iff]
          exact hmatch
        simp only [run, isFull, take, hoccurs, ih, Verb.passes]
        simp [hmatch]

/-- The lines that were not seen before, each at its first place. -/
theorem run_distinct (seen lines : List Text) :
    (distinct seen).run lines = (lines.filter fun line => line ∉ seen).eraseDups := by
  induction lines generalizing seen with
  | nil => rfl
  | cons line rest ih =>
      by_cases hseen : line ∈ seen
      · simp [run, isFull, take, hseen, ih]
      · have hnext := ih (line :: seen)
        simp only [run, isFull, take, hseen, if_false, Option.toList_some,
          List.singleton_append, hnext, Bool.false_eq_true]
        rw [List.filter_cons_of_pos (by simpa using hseen), List.eraseDups_cons,
          List.filter_filter]
        congr 3
        funext other
        by_cases hsame : other = line <;> simp [hsame]

private theorem run_first (left : Nat) (lines : List Text) :
    (first left).run lines = lines.take left := by
  induction lines generalizing left with
  | nil => simp [run, flush]
  | cons line rest ih =>
      cases left with
      | zero => simp [run, isFull, flush]
      | succ left => simp [run, isFull, take, ih]

/-- The ring holds the last lines of all that were kept or came later. -/
theorem run_last {kept : List Text} (hkept : kept.length ≤ keptLines) (lines : List Text) :
    (last kept).run lines = (kept ++ lines).drop ((kept ++ lines).length - keptLines) := by
  induction lines generalizing kept with
  | nil =>
      have hshort : kept.length - keptLines = 0 := by omega
      simp [run, flush, hshort]
  | cons line rest ih =>
      by_cases hfull : kept.length = keptLines
      · obtain ⟨oldest, newer, rfl⟩ : ∃ oldest newer, kept = oldest :: newer := by
          cases kept with
          | nil => simp [keptLines] at hfull
          | cons oldest newer => exact ⟨oldest, newer, rfl⟩
        have hlength : (newer ++ [line]).length ≤ keptLines := by simpa using hkept
        have hnext := ih hlength
        have hcount : (oldest :: newer ++ line :: rest).length - keptLines =
            (newer ++ [line] ++ rest).length - keptLines + 1 := by
          simp only [List.length_append, List.length_cons, List.length_nil] at hfull ⊢
          omega
        simp only [run, isFull, take, if_pos hfull, List.tail_cons, Option.toList_none,
          List.nil_append, Bool.false_eq_true, if_false]
        rw [hnext, hcount, List.cons_append, List.drop_succ_cons]
        simp
      · have hlength : (kept ++ [line]).length ≤ keptLines := by
          simp only [List.length_append, List.length_singleton]
          omega
        have hnext := ih hlength
        simp only [run, isFull, take, if_neg hfull, Option.toList_none, List.nil_append,
          Bool.false_eq_true, if_false]
        rw [hnext]
        simp

/-- The totals are those over all lines that were counted. -/
theorem run_counting (count : WordCount) (lines : List Text) :
    (counting count).run lines = [(lines.foldl WordCount.addLine count).render] := by
  induction lines generalizing count with
  | nil => rfl
  | cons line rest ih =>
      simp only [run, isFull, take, Option.toList_none, List.nil_append, Bool.false_eq_true,
        if_false, ih, List.foldl_cons]

end Filter

/-- The filter that a verb begins with. -/
def Verb.filter? : Verb → Option Filter
  | .grep query => some (.matching query)
  | .uniq => some (.distinct [])
  | .wc => some (.counting {})
  | .head => some (.first keptLines)
  | .tail => some (.last [])
  | _ => none

/-- The filter that a verb begins with makes of a list of lines what the verb
does. -/
theorem Verb.run_of_filter? {verb : Verb} {filter : Filter} (h : verb.filter? = some filter)
    (lines : List Text) : filter.run lines = verb.passes lines := by
  cases verb with
  | grep query =>
      obtain rfl := Option.some.inj h
      exact Filter.run_matching query lines
  | uniq =>
      obtain rfl := Option.some.inj h
      simpa [passes] using Filter.run_distinct [] lines
  | wc =>
      obtain rfl := Option.some.inj h
      rw [Filter.run_counting, WordCount.foldl_addLine]
      simp [passes, WordCount.render]
  | head =>
      obtain rfl := Option.some.inj h
      exact Filter.run_first keptLines lines
  | tail =>
      obtain rfl := Option.some.inj h
      have hnone : ([] : List Text).length ≤ keptLines := Nat.zero_le _
      simpa [passes, keptLines] using Filter.run_last hnone lines
  | _ => cases h

end LineShell
