import LineShell.Proofs.StageLines

/-!
Filters that get their lines little by little. What a filter has passed on when it has
taken some lines does not depend on what is still to come, and the filter that it is then
goes on from there. Some filters pass on all they have at once, and hold nothing back for
the end; the others pass nothing on before the end.
-/

namespace LineShell

namespace Filter

/-- The filter that is left when some lines have come, of which it takes no more than it
wants. -/
def after : Filter → List Text → Filter
  | filter, [] => filter
  | filter, line :: rest => if filter.isFull then filter else (filter.take line).1.after rest

/-- What the filter passes on at once when some lines come. -/
def passedOn : Filter → List Text → List Text
  | _, [] => []
  | filter, line :: rest =>
    if filter.isFull then []
    else (filter.take line).2.toList ++ (filter.take line).1.passedOn rest

/-- A full filter takes no line. -/
theorem after_of_isFull {filter : Filter} (h : filter.isFull = true) (lines : List Text) :
    filter.after lines = filter ∧ filter.passedOn lines = [] := by
  cases lines <;> simp [after, passedOn, h]

/-- What comes in two pieces is taken as what comes in one. -/
theorem after_append (filter : Filter) (first second : List Text) :
    filter.after (first ++ second) = (filter.after first).after second ∧
      filter.passedOn (first ++ second) =
        filter.passedOn first ++ (filter.after first).passedOn second := by
  induction first generalizing filter with
  | nil => exact ⟨rfl, rfl⟩
  | cons line rest ih =>
      by_cases hfull : filter.isFull = true
      · simp [after_of_isFull hfull]
      · simp [after, passedOn, hfull, ih]

theorem after_concat {filter : Filter} {lines : List Text}
    (h : (filter.after lines).isFull = false) (line : Text) :
    filter.after (lines ++ [line]) = ((filter.after lines).take line).1 ∧
      filter.passedOn (lines ++ [line]) =
        filter.passedOn lines ++ ((filter.after lines).take line).2.toList := by
  obtain ⟨hafter, hpassed⟩ := filter.after_append lines [line]
  rw [hafter, hpassed]
  simp [after, passedOn, h]

/-- A filter that has become full stays as it is, and passes nothing on any more. -/
theorem after_append_of_isFull {filter : Filter} {first : List Text}
    (h : (filter.after first).isFull = true) (second : List Text) :
    filter.after (first ++ second) = filter.after first ∧
      filter.passedOn (first ++ second) = filter.passedOn first := by
  obtain ⟨hafter, hpassed⟩ := filter.after_append first second
  obtain ⟨hsame, hnothing⟩ := after_of_isFull h second
  exact ⟨hafter.trans hsame, by rw [hpassed, hnothing, List.append_nil]⟩

/-- Lines that come all at once are passed on in the same way as lines that come one by
one, with what is held back at the end. -/
theorem run_eq (filter : Filter) (lines : List Text) :
    filter.run lines = filter.passedOn lines ++ (filter.after lines).flush := by
  induction lines generalizing filter with
  | nil => rfl
  | cons line rest ih =>
      by_cases hfull : filter.isFull = true
      · simp [run, after, passedOn, hfull]
      · simp [run, after, passedOn, hfull, ih]

theorem closesInput_after (filter : Filter) (lines : List Text) :
    (filter.after lines).closesInput = filter.closesInput := by
  induction lines generalizing filter with
  | nil => rfl
  | cons line rest ih =>
      simp only [after]
      split
      · rfl
      · rw [ih]
        cases filter with
        | distinct seen =>
            simp only [take]
            split <;> rfl
        | _ => rfl

theorem closesInput_of_isFull {filter : Filter} (h : filter.isFull = true) :
    filter.closesInput = true := by
  cases filter with
  | first left => rfl
  | _ => cases h

/-- A filter that passes on at once whatever it will pass on. -/
def isStreaming : Filter → Bool
  | matching _ | distinct _ | first _ => true
  | last _ | counting _ => false

private theorem isStreaming_take (filter : Filter) (line : Text) :
    (filter.take line).1.isStreaming = filter.isStreaming := by
  cases filter with
  | distinct seen =>
      simp only [take]
      split <;> rfl
  | _ => rfl

private theorem isStreaming_after (filter : Filter) (lines : List Text) :
    (filter.after lines).isStreaming = filter.isStreaming := by
  induction lines generalizing filter with
  | nil => rfl
  | cons line rest ih =>
      simp only [after]
      split
      · rfl
      · rw [ih, isStreaming_take]

private theorem flush_of_isStreaming {filter : Filter} (h : filter.isStreaming = true) :
    filter.flush = [] := by
  cases filter with
  | last kept => cases h
  | counting count => cases h
  | _ => rfl

/-- The other filters pass nothing on before the end, and never have enough. -/
theorem passedOn_of_not_isStreaming {filter : Filter} (h : filter.isStreaming = false)
    (lines : List Text) :
    filter.passedOn lines = [] ∧ (filter.after lines).isFull = false := by
  have hfull {other : Filter} (hother : other.isStreaming = false) : other.isFull = false := by
    cases other with
    | first left => cases hother
    | _ => rfl
  induction lines generalizing filter with
  | nil => exact ⟨rfl, hfull h⟩
  | cons line rest ih =>
      obtain ⟨hpassed, hwants⟩ := ih ((isStreaming_take filter line).trans h)
      have htake : (filter.take line).2 = none := by
        cases filter with
        | last kept => rfl
        | counting count => rfl
        | _ => cases h
      simp [after, passedOn, hfull h, htake, hpassed, hwants]

private theorem isFull_after_first (left : Nat) (lines : List Text) :
    ((first left).after lines).isFull = true ↔ left ≤ lines.length := by
  induction lines generalizing left with
  | nil => cases left <;> simp [after, isFull]
  | cons line rest ih =>
      cases left with
      | zero => simp [after, isFull]
      | succ left =>
          have hwants : (first (left + 1)).isFull = false := rfl
          simpa [after, hwants, take] using ih left

end Filter

namespace Verb

/-- The verbs of the filters that pass on at once whatever they will pass on. -/
def isStreaming : Verb → Bool
  | grep _ | uniq | head => true
  | _ => false

/-- The verbs of the filters that pass nothing on before the end. -/
def isAccumulating : Verb → Bool
  | wc | tail => true
  | _ => false

variable {verb : Verb} {filter : Filter}

theorem passedOn_of_isStreaming (hfilter : verb.filter? = some filter)
    (h : verb.isStreaming = true) (lines : List Text) :
    filter.passedOn lines = verb.passes lines ∧ (filter.after lines).flush = [] := by
  have hstreaming : filter.isStreaming = true := by
    cases verb with
    | grep query | uniq | head => cases hfilter; rfl
    | _ => cases h
  have hflush : (filter.after lines).flush = [] :=
    Filter.flush_of_isStreaming ((filter.isStreaming_after lines).trans hstreaming)
  have hrun := verb.run_of_filter? hfilter lines
  rw [Filter.run_eq, hflush, List.append_nil] at hrun
  exact ⟨hrun, hflush⟩

theorem flush_of_isAccumulating (hfilter : verb.filter? = some filter)
    (h : verb.isAccumulating = true) (lines : List Text) :
    filter.passedOn lines = [] ∧ (filter.after lines).isFull = false ∧
      (filter.after lines).flush = verb.passes lines := by
  have hstreaming : filter.isStreaming = false := by
    cases verb with
    | wc | tail => cases hfilter; rfl
    | _ => cases h
  obtain ⟨hpassed, hwants⟩ := Filter.passedOn_of_not_isStreaming hstreaming lines
  have hrun := verb.run_of_filter? hfilter lines
  rw [Filter.run_eq, hpassed, List.nil_append] at hrun
  exact ⟨hpassed, hwants, hrun⟩

/-- Only `head` ever has enough, and this at its tenth line. -/
theorem isFull_after_iff (hfilter : verb.filter? = some filter) (lines : List Text) :
    (filter.after lines).isFull = true ↔ verb = .head ∧ keptLines ≤ lines.length := by
  have hopen (hkeeps : filter.closesInput = false) : (filter.after lines).isFull = false := by
    rw [Bool.eq_false_iff]
    intro hfull
    have hcloses := Filter.closesInput_of_isFull hfull
    rw [Filter.closesInput_after, hkeeps] at hcloses
    cases hcloses
  cases verb with
  | head =>
      cases hfilter
      simp [Filter.isFull_after_first]
  | grep | uniq | wc | tail =>
      cases hfilter
      simp [hopen rfl]
  | _ => cases hfilter

end Verb

end LineShell
