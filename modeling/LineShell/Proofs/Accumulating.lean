import LineShell.Proofs.BenchedFilters
import LineShell.Proofs.WordTotals

/-!
The filters that keep their lines to themselves until the end. However their lines come
and however often they are polled, `wc` and `tail` send nothing and wait as long as more
lines may come, and the first poll after that finds all that there is to send: the last
lines, or one line with the totals.
-/

namespace LineShell

variable {verb : Verb} {filter : Filter} {passed : List Text} {bench : Bench} {world : World}
  {handlings : List Handling}

/-- Where an accumulating filter can be between polls, as long as there is a receiver: it
has handed nothing on, or it has returned with all that it has to hand on. -/
theorem Benched.accumulates (h : Benched verb filter passed bench)
    (hfilter : verb.filter? = some filter) (haccumulating : verb.isAccumulating = true)
    (hheard : bench.isHeard = true)
    (hbody : bench.body = .fresh verb ∨ (∃ reader, bench.body = .waiting reader) ∨
      ∃ ending, bench.body = .ended ending) :
    (bench.hasReturned = false ∧ passed = []) ∨
      (bench.body = .ended .completed ∧ bench.isFed = false ∧ passed = verb.passes bench.fed) := by
  obtain ⟨input, output, hserves⟩ := h
  have hnothing (lines : List Text) : filter.passedOn lines = [] :=
    (Verb.flush_of_isAccumulating hfilter haccumulating lines).1
  obtain ⟨-, hwants, hflush⟩ := Verb.flush_of_isAccumulating hfilter haccumulating bench.fed
  have hstands := hserves.stands
  rcases hbody with hfresh | ⟨reader, hwaiting⟩ | ⟨ending, hended⟩
  · rw [hfresh] at hstands
    refine .inl ⟨by rw [Bench.hasReturned, hfresh], ?_⟩
    cases hstands with
    | fresh => rfl
    | reading asks => cases asks
    | handing hands => cases hands
    | flushing hands => cases hands
  · rw [hwaiting] at hstands
    refine .inl ⟨by rw [Bench.hasReturned, hwaiting], ?_⟩
    cases hstands with
    | reading => exact hnothing _
    | handing hands => cases hands
    | flushing hands => cases hands
  · rw [hended] at hstands
    rcases hstands.ended_cases with ⟨rfl, hthrough, -, -, hpassed⟩ | ⟨-, hdeaf, -⟩
    · have hover : input.IsOver := hthrough.resolve_left (by simp [hwants])
      refine .inr ⟨hended, ?_, ?_⟩
      · rw [Bool.eq_false_iff, ne_eq, Bench.isFed_iff hserves.reads, not_not]
        exact hover
      · rw [hpassed, hnothing, hflush, List.nil_append]
    · rw [hserves.isHeard_eq, hdeaf] at hheard
      cases hheard

/-- A poll leaves such a filter waiting for more lines or at its end. -/
theorem Benched.accumulates_poll (h : Benched verb filter passed bench)
    (hfilter : verb.filter? = some filter) (haccumulating : verb.isAccumulating = true)
    (hheard : bench.isHeard = true) :
    ((∃ reader, bench.poll.1.body = .waiting reader) ∧ bench.isFed = true ∧
        bench.poll.1.emitted = []) ∨
      (bench.poll.1.body = .ended .completed ∧ bench.isFed = false ∧
        bench.poll.1.emitted = verb.passes bench.fed) := by
  obtain ⟨told, hpolled, -⟩ := h.poll hfilter
  obtain ⟨hfed, hthere⟩ := Bench.isFed_congr bench.hands_poll
  rw [hheard] at hthere
  rw [hpolled.emitted_eq hthere]
  rcases hpolled.accumulates hfilter haccumulating hthere (.inr bench.body_poll) with
    ⟨hgoing, hnothing⟩ | ⟨hended, hover, hall⟩
  · obtain ⟨input, output, hserves⟩ := hpolled
    rcases hserves.rest_cases bench.step_poll with ⟨ending, hended⟩ | ⟨hwaiting, hopen, -⟩
    · rw [Bench.hasReturned, hended] at hgoing
      cases hgoing
    · rw [← Bench.isFed_iff hserves.reads, hfed] at hopen
      exact .inl ⟨hwaiting, hopen, hnothing⟩
  · rw [hfed] at hover
    rw [bench.books_poll.1] at hall
    exact .inr ⟨hended, hover, hall⟩

namespace Bench

/-- As long as more lines may come, `wc` and `tail` send nothing and wait, however often
they are polled. The first poll after that returns and has sent all there is: `tail` the
last ten lines, and `wc` three numbers, which are the sums of what the lines have each. -/
theorem accumulating_sums_up (haccumulating : verb.isAccumulating = true)
    (hfollow : (start verb world).follow handlings = some bench) (hheard : bench.isHeard = true) :
    (bench.isFed = true →
      bench.hasReturned = false ∧ bench.emitted = [] ∧ bench.poll.2 = .pending ∧
        bench.poll.1.emitted = []) ∧
    (bench.isFed = false → bench.hasReturned = false →
      bench.emitted = [] ∧ bench.poll.2 = .returned .completed ∧
        (verb = .tail → bench.poll.1.emitted = bench.fed.drop (bench.fed.length - 10)) ∧
        (verb = .wc → bench.poll.1.emitted =
          [Text.ofNat bench.fed.length ++
            ' ' :: Text.ofNat (bench.fed.map WordCount.wordsBySpaces).sum ++
            ' ' :: Text.ofNat (bench.fed.map List.length).sum])) ∧
    (∀ lines, WordCount.ofLines lines =
      { lines := lines.length
        words := (lines.map WordCount.wordsBySpaces).sum
        chars := (lines.map List.length).sum }) ∧
    (∀ lines line, (WordCount.ofLines lines).addLine line = WordCount.ofLines (lines ++ [line])) ∧
    ∀ first second, WordCount.ofLines (first ++ second) =
      { lines := (WordCount.ofLines first).lines + (WordCount.ofLines second).lines
        words := (WordCount.ofLines first).words + (WordCount.ofLines second).words
        chars := (WordCount.ofLines first).chars + (WordCount.ofLines second).chars } := by
  obtain ⟨filter, hfilter⟩ : ∃ filter, verb.filter? = some filter := by
    cases verb with
    | wc | tail => exact ⟨_, rfl⟩
    | _ => cases haccumulating
  obtain ⟨passed, hbench⟩ := (benched_start hfilter world).follow hfilter hfollow
  have hemitted := hbench.emitted_eq hheard
  have hafter := hbench.accumulates_poll hfilter haccumulating hheard
  have hbefore := hbench.accumulates hfilter haccumulating hheard (body_cases hfollow)
  refine ⟨fun hfed => ?_, fun hover hgoing => ?_, WordCount.ofLines_eq,
    fun lines line => (WordCount.ofLines_concat lines line).symm, WordCount.ofLines_append⟩
  · rw [hfed] at hbefore hafter
    obtain ⟨hgoing, rfl⟩ := hbefore.resolve_right (by simp)
    obtain ⟨⟨reader, hwaiting⟩, -, hnothing⟩ := hafter.resolve_right (by simp)
    exact ⟨hgoing, hemitted, by rw [answer_poll, hgoing, hwaiting, if_neg Bool.false_ne_true],
      hnothing⟩
  · rw [hover] at hafter
    obtain ⟨hended, -, hall⟩ := hafter.resolve_left (by simp)
    obtain ⟨-, rfl⟩ := hbefore.resolve_right (by
      rintro ⟨hended, -⟩
      rw [hasReturned, hended] at hgoing
      cases hgoing)
    refine ⟨hemitted, by rw [answer_poll, hgoing, hended, if_neg Bool.false_ne_true],
      fun htail => ?_, fun hwc => ?_⟩
    · rw [hall, htail, Verb.passes]
    · rw [hall, hwc, Verb.passes]

/-- An empty line is a word, and spaces at the end of a line make none. -/
theorem accumulating_sums_up_sample :
    ∃ bench,
      (start .wc { files := FileTree.empty, directory := "/".toList }).follow
          [.feed "a  b ".toList, .poll, .feed [], .mark] = some bench ∧
        bench.emitted = [] ∧ bench.poll.2 = .returned .completed ∧
        bench.poll.1.emitted = ["2 4 5".toList] := by
  have hvalues : ((start .wc { files := FileTree.empty, directory := "/".toList }).follow
        [.feed "a  b ".toList, .poll, .feed [], .mark]).map
          (fun bench => (bench.fed, bench.isHeard, bench.isFed, bench.hasReturned)) =
      some (["a  b ".toList, []], true, false, false) := by
    cbv
  obtain ⟨bench, hfollow, hbench⟩ := Option.map_eq_some_iff.mp hvalues
  simp only [Prod.mk.injEq] at hbench
  obtain ⟨hfed, hheard, hover, hgoing⟩ := hbench
  obtain ⟨-, hend, -⟩ := accumulating_sums_up (by rfl) hfollow hheard
  obtain ⟨hnothing, hreturned, -, htotals⟩ := hend hover hgoing
  refine ⟨bench, hfollow, hnothing, hreturned, ?_⟩
  rw [htotals rfl, hfed]
  decide

end Bench

end LineShell
