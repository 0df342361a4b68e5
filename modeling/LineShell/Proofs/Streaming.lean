import LineShell.Proofs.BenchedFilters

/-!
The filters that pass lines on as they come. After every poll such a filter has sent what
it makes of all lines that were fed so far, however they were cut into polls. It waits as
long as more lines may come that it wants, and then it returns, once. Where the receiver
has gone it reads on, up to the first line that it would have sent.
-/

namespace LineShell

namespace Bench

/-- Whether more lines may come that a verb wants. Only `head` ever has enough. -/
def expects (verb : Verb) (bench : Bench) : Bool :=
  bench.isFed && decide (verb = .head → bench.fed.length < 10)

/-- What a poll answers on a bench for a streaming verb that need not turn a line back. -/
def answer (verb : Verb) (bench : Bench) : Polled :=
  if bench.hasReturned then .gone
  else if bench.expects verb then .pending
  else .returned .completed

end Bench

/-- Where a streaming filter can be that cannot go on and has passed these lines on: it
waits for a line, or it has come to its end, or it has read a line that nobody was there
to take. -/
inductive Rests (verb : Verb) (passed : List Text) (bench : Bench) : Prop
  | waiting (waits : ∃ reader, bench.body = .waiting reader)
      (all : verb.passes bench.fed = passed) (spent : bench.unread = [])
      (wants : bench.expects verb = true)
  | completed (returned : bench.body = .ended .completed)
      (all : verb.passes bench.fed = passed) (spent : bench.unread = [])
      (through : bench.expects verb = false)
  | refused {read : List Text} {line : Text} (returned : bench.body = .ended .downstreamClosed)
      (deaf : bench.isHeard = false) (more : verb.passes bench.fed ≠ passed)
      (split : bench.fed = read ++ line :: bench.unread) (before : verb.passes read = passed)
      (first : verb.passes (read ++ [line]) ≠ passed)

variable {verb : Verb} {filter : Filter} {passed : List Text} {bench later : Bench}
  {input output : Channel} {world : World} {handlings : List Handling}

/-- The filter of a verb expects more lines as long as it is not full and its channel is
not over. -/
theorem Bench.expects_iff (hfilter : verb.filter? = some filter)
    (hinput : bench.wiring.input = some input) :
    bench.expects verb = true ↔ ¬ input.IsOver ∧ (filter.after bench.fed).isFull = false := by
  rw [expects, Bool.and_eq_true, decide_eq_true_iff, isFed_iff hinput, Bool.eq_false_iff, ne_eq,
    Verb.isFull_after_iff hfilter, not_and, keptLines, not_le]

private theorem Benched.rests (h : Benched verb filter passed bench)
    (hfilter : verb.filter? = some filter) (hstreaming : verb.isStreaming = true)
    (hrest : bench.body.step bench.wiring bench.world = none) : Rests verb passed bench := by
  obtain ⟨input, output, hserves⟩ := h
  have hall (lines : List Text) : filter.passedOn lines = verb.passes lines :=
    (Verb.passedOn_of_isStreaming hfilter hstreaming lines).1
  have hflush : (filter.after bench.fed).flush = [] :=
    (Verb.passedOn_of_isStreaming hfilter hstreaming bench.fed).2
  have hexpects := Bench.expects_iff hfilter hserves.reads
  have hunread := hserves.unread_eq
  rcases hserves.rest_cases hrest with
    ⟨ending, hended⟩ | ⟨hwaits, hopen, hspent, hwants, hpassed⟩
  · have hstands := hserves.stands
    rw [hended] at hstands
    rcases hstands.ended_cases with
      ⟨rfl, hthrough, -, hspent, hpassed⟩ |
        ⟨rfl, hdeaf, ⟨read, line, told, hsplit, rfl, hpasses⟩ | hkept⟩
    · refine .completed hended ?_ (hunread.trans hspent) ?_
      · rw [hpassed, hflush, List.append_nil, hall]
      · rw [Bool.eq_false_iff, ne_eq, hexpects]
        rintro ⟨hopen, hwants⟩
        rcases hthrough with hfull | hover
        · rw [hwants] at hfull
          cases hfull
        · exact hopen hover
    · rw [← hunread] at hsplit
      have hmore : filter.passedOn bench.fed = filter.passedOn read ++
          ([told] ++ (filter.after (read ++ [line])).passedOn bench.unread) := by
        rw [← List.append_assoc, ← hpasses, ← (filter.after_append _ _).2, List.append_assoc]
        exact congrArg filter.passedOn hsplit
      refine .refused hended (hserves.isHeard_eq.trans hdeaf) ?_ hsplit (hall read).symm ?_
      · rw [← hall, hmore]
        simp
      · rw [← hall, hpasses]
        simp
    · exact absurd hflush hkept
  · exact .waiting hwaits (by rw [hpassed, hall]) (hunread.trans hspent)
      (hexpects.mpr ⟨hopen, hwants⟩)

/-- A filter that gives its input up takes no line in when it has come to its end. -/
theorem Benched.refuses {line : Text} {fed : Bench × Bool} (h : Benched verb filter passed bench)
    (hcloses : filter.closesInput = true) (hended : bench.body = .ended .completed)
    (hfeed : bench.feed line = some fed) : fed.2 = false := by
  obtain ⟨input, output, hserves⟩ := h
  obtain ⟨channel, hinput, -, rfl⟩ := Bench.feed_eq_some hfeed
  obtain rfl : input = channel := Option.some.inj (hserves.reads.symm.trans hinput)
  have hstands := hserves.stands
  rw [hended] at hstands
  rcases hstands.ended_cases with ⟨-, -, hshut, -, -⟩ | ⟨hclosed, -⟩
  · simp [Channel.send, hshut hcloses]
  · cases hclosed

namespace Bench

private theorem expects_poll (verb : Verb) (bench : Bench) :
    bench.poll.1.expects verb = bench.expects verb := by
  rw [expects, expects, (isFed_congr bench.hands_poll).1, bench.books_poll.1]

/-- A filter that has sent all it can make of its lines is not turned back by a poll. -/
theorem answer_of_rests (h : Rests verb passed bench.poll.1)
    (hall : verb.passes bench.fed = passed) :
    bench.poll.2 = bench.answer verb ∧ bench.poll.1.unread = [] := by
  have hexpects := expects_poll verb bench
  cases h with
  | waiting waits _ spent wants =>
      obtain ⟨reader, hwaits⟩ := waits
      rw [hexpects] at wants
      exact ⟨by rw [answer_poll, answer, hwaits, wants, if_pos rfl], spent⟩
  | completed returned _ spent through =>
      rw [hexpects] at through
      exact ⟨by rw [answer_poll, answer, returned, through, if_neg Bool.false_ne_true], spent⟩
  | refused _ _ more =>
      rw [bench.books_poll.1] at more
      exact absurd hall more

/-- A filter that could make more of its lines is turned back at the first of them that
it would have sent. -/
theorem refused_of_rests (h : Rests verb passed bench.poll.1) (hgoing : bench.hasReturned = false)
    (hmore : verb.passes bench.fed ≠ passed) :
    bench.poll.2 = .returned .downstreamClosed ∧
      ∃ read line, bench.fed = read ++ line :: bench.poll.1.unread ∧
        verb.passes read = passed ∧ verb.passes (read ++ [line]) ≠ passed := by
  rw [← bench.books_poll.1] at hmore ⊢
  cases h with
  | waiting _ all => exact absurd all hmore
  | completed _ all => exact absurd all hmore
  | refused returned _ _ split before first =>
      exact ⟨by rw [answer_poll, hgoing, returned, if_neg Bool.false_ne_true],
        _, _, split, before, first⟩

end Bench

/-- A polled streaming filter has come to rest, and it has sent nothing where there is no
receiver. -/
theorem Benched.rests_poll (h : Benched verb filter passed bench)
    (hfilter : verb.filter? = some filter) (hstreaming : verb.isStreaming = true) :
    ∃ told, Benched verb filter told bench.poll.1 ∧ Rests verb told bench.poll.1 ∧
      (bench.isHeard = false → told = passed) := by
  obtain ⟨told, hafter, hsame⟩ := h.poll hfilter
  exact ⟨told, hafter, hafter.rests hfilter hstreaming bench.step_poll, hsame⟩

/-- A filter that has lost its receiver has passed on what it had sent by then. -/
theorem Benched.follow_turnAway (h : Benched verb filter passed bench)
    (hfilter : verb.filter? = some filter)
    (hfollow : bench.follow (.turnAway :: handlings) = some later) :
    bench.emitted = passed ∧ Benched verb filter passed later ∧ later.isHeard = false := by
  cases hact : bench.act .turnAway with
  | none => simp [Bench.follow, hact] at hfollow
  | some left =>
      rw [Bench.follow, hact] at hfollow
      obtain ⟨hleft, hheard⟩ := h.atReceiver hact fun _ hthere =>
        absurd hthere Bool.false_ne_true
      have hdeaf : left.isHeard = false := by
        obtain ⟨channel, -, -, rfl⟩ := Bench.atReceiver_eq_some hact
        rfl
      exact ⟨h.emitted_eq hheard, hleft.follow_of_unheard hfilter hdeaf hfollow⟩

namespace Bench

/-- Whatever hands have done on a bench with a streaming verb, and however often they have
polled it: while there is a receiver, a poll leaves behind what the verb makes of all
lines that were fed, and it waits as long as more of them may come that the verb wants;
otherwise it returns, and never again. `head` takes no line in when it has returned.
Where the receiver has gone, a poll reads all lines of which the verb makes nothing more
than it had sent by then, and turns back at the first other line. -/
theorem streaming_keeps_up (hstreaming : verb.isStreaming = true)
    (hfollow : (start verb world).follow handlings = some bench) :
    (bench.isHeard = true →
      bench.poll.1.emitted = verb.passes bench.fed ∧ bench.poll.2 = bench.answer verb) ∧
    (bench.poll.2 ≠ .pending →
      ∀ more later, bench.poll.1.follow more = some later → later.poll.2 = .gone) ∧
    (verb = .head → bench.poll.2 = .returned .completed →
      ∀ more later, bench.poll.1.follow more = some later →
        ∀ line fed, later.feed line = some fed → fed.2 = false) ∧
    ∀ more later, bench.follow (.turnAway :: more) = some later → later.hasReturned = false →
      if verb.passes later.fed = bench.emitted then
        later.poll.2 = later.answer verb ∧ later.poll.1.unread = []
      else
        later.poll.2 = .returned .downstreamClosed ∧
          ∃ read line, later.fed = read ++ line :: later.poll.1.unread ∧
            verb.passes read = bench.emitted ∧ verb.passes (read ++ [line]) ≠ bench.emitted := by
  obtain ⟨filter, hfilter⟩ : ∃ filter, verb.filter? = some filter := by
    cases verb with
    | grep | uniq | head => exact ⟨_, rfl⟩
    | _ => cases hstreaming
  obtain ⟨passed, hbench⟩ := (benched_start hfilter world).follow hfilter hfollow
  obtain ⟨told, hpolled, hrests, -⟩ := hbench.rests_poll hfilter hstreaming
  refine ⟨fun hheard => ?_, fun hreturned more later hmore => ?_,
    fun hhead hreturned more later hmore line fed hfeed => ?_, fun more later hmore hgoing => ?_⟩
  · have hthere : bench.poll.1.isHeard = true := (isFed_congr bench.hands_poll).2.trans hheard
    have hall : verb.passes bench.fed = told := by
      rw [← bench.books_poll.1]
      cases hrests with
      | waiting _ all => exact all
      | completed _ all => exact all
      | refused _ deaf => simp [deaf] at hthere
    exact ⟨(hpolled.emitted_eq hthere).trans hall.symm, (answer_of_rests hrests hall).1⟩
  · exact gone_of_follow hreturned hmore
  · subst hhead
    obtain rfl : Filter.first keptLines = filter := Option.some.inj hfilter
    obtain ⟨_, hlater⟩ := hpolled.follow hfilter hmore
    exact hlater.refuses rfl (body_of_follow (body_of_returned hreturned) hmore) hfeed
  · obtain ⟨hemitted, hlater, hdeaf⟩ := hbench.follow_turnAway hfilter hmore
    obtain ⟨_, -, hrests, hsame⟩ := hlater.rests_poll hfilter hstreaming
    rw [hsame hdeaf] at hrests
    rw [hemitted]
    split
    · rename_i hall
      exact answer_of_rests hrests hall
    · rename_i hmore
      exact refused_of_rests hrests hgoing hmore

/-- A line that comes a second time is not sent, and a line that nobody takes is turned
back. -/
theorem streaming_keeps_up_sample :
    ∃ bench later,
      (start .uniq { files := FileTree.empty, directory := "/".toList }).follow
          [.feed "x".toList, .poll, .feed "y".toList, .feed "x".toList] = some bench ∧
        bench.poll.1.emitted = ["x".toList, "y".toList] ∧ bench.poll.2 = .pending ∧
        bench.follow [.turnAway] = some later ∧
        later.poll.2 = .returned .downstreamClosed := by
  have hvalues : ((start .uniq { files := FileTree.empty, directory := "/".toList }).follow
        [.feed "x".toList, .poll, .feed "y".toList, .feed "x".toList]).map
          (fun bench => (bench.fed, bench.emitted, bench.isHeard, bench.answer .uniq,
            bench.hasReturned)) =
      some (["x".toList, "y".toList, "x".toList], ["x".toList], true, .pending, false) := by
    cbv
  obtain ⟨bench, hfollow, hbench⟩ := Option.map_eq_some_iff.mp hvalues
  simp only [Prod.mk.injEq] at hbench
  obtain ⟨hfed, hemitted, hheard, hanswer, hgoing⟩ := hbench
  obtain ⟨channel, houtput, hthere⟩ := (Option.any_eq_true _ _).mp hheard
  have hturned : bench.follow [.turnAway] = some { bench with
      wiring := { bench.wiring with output := some channel.dropReceiver }
      taken := bench.taken ++ [] } := by
    simp [follow, act, atReceiver, houtput, hthere]
  obtain ⟨hkeeps, -, -, hdeaf⟩ := streaming_keeps_up (by rfl) hfollow
  obtain ⟨hsent, hpending⟩ := hkeeps hheard
  have hmore : Verb.uniq.passes bench.fed ≠ bench.emitted := by
    rw [hfed, hemitted]
    decide
  have hrefused := hdeaf [] _ hturned hgoing
  rw [if_neg hmore] at hrefused
  refine ⟨bench, _, hfollow, ?_, hpending.trans hanswer, hturned, hrefused.1⟩
  rw [hsent, hfed]
  decide

end Bench

end LineShell
