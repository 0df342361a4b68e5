import LineShell.Proofs.Bench
import LineShell.Proofs.Piecemeal

/-!
A filter on a bench. Whatever hands do to it, the lines that it has read are the first of
those that were fed, and what it has passed on is what it makes of these, without a look
at those that are still to come. It returns when it has had enough, or at the end of its
lines, or when it has a line to pass on and nobody is there to take it; otherwise it
waits, and then it has read all lines.
-/

namespace LineShell

/-- Where a filter stands that works for a verb, when some lines have been fed to it, when
there is a receiver for its lines or none, and when it has passed some lines on. -/
inductive FilterProgress (verb : Verb) (filter : Filter) (fed : List Text) (input : Channel)
    (heard : Bool) : List Text → Body → Prop
  | fresh (held : input.Holds fed) : FilterProgress verb filter fed input heard [] (.fresh verb)
  | reading {read unread : List Text} {body : Body}
      (asks : body.Asks (.filter (filter.after read))) (split : fed = read ++ unread)
      (held : input.Holds unread) (wants : (filter.after read).isFull = false) :
      FilterProgress verb filter fed input heard (filter.passedOn read) body
  | handing {read unread : List Text} {line passed : Text} {body : Body}
      (hands : body.Hands passed (.read (filter.after (read ++ [line]))))
      (split : fed = read ++ line :: unread) (held : input.Holds unread)
      (passes : filter.passedOn (read ++ [line]) = filter.passedOn read ++ [passed]) :
      FilterProgress verb filter fed input heard (filter.passedOn read) body
  | flushing {front rest : List Text} {line : Text} {body : Body}
      (hands : body.Hands line (.flush rest)) (closed : input.IsOver) (held : input.Holds [])
      (flush : (filter.after fed).flush = front ++ line :: rest) :
      FilterProgress verb filter fed input heard (filter.passedOn fed ++ front) body
  | closing (through : (filter.after fed).isFull = true ∨ input.IsOver)
      (closes : filter.closesInput = true) :
      FilterProgress verb filter fed input heard (filter.passedOn fed) .closing
  | completed (through : (filter.after fed).isFull = true ∨ input.IsOver)
      (shut : filter.closesInput = true → input.hasReceiver = false) (spent : input.lines = []) :
      FilterProgress verb filter fed input heard (filter.passedOn fed ++ (filter.after fed).flush)
        (.ended .completed)
  | refused {read unread : List Text} {line passed : Text} (deaf : heard = false)
      (split : fed = read ++ line :: unread) (held : input.Holds unread)
      (passes : filter.passedOn (read ++ [line]) = filter.passedOn read ++ [passed]) :
      FilterProgress verb filter fed input heard (filter.passedOn read) (.ended .downstreamClosed)
  | unheard {front rest : List Text} {line : Text} (deaf : heard = false)
      (closed : input.IsOver) (flush : (filter.after fed).flush = front ++ line :: rest) :
      FilterProgress verb filter fed input heard (filter.passedOn fed ++ front)
        (.ended .downstreamClosed)

variable {verb : Verb} {filter : Filter} {fed taken passed : List Text}
  {body next : Body} {wiring after : Wiring} {world later : World} {input output : Channel}
  {heard : Bool}

namespace FilterProgress

/-- A filter that has read a line and has nothing to hand on goes on reading, unless it
has had enough. -/
theorem readOn {read unread : List Text} (hsplit : fed = read ++ unread)
    (hheld : input.Holds unread) :
    FilterProgress verb filter fed input heard (filter.passedOn read)
      (Body.readOn (filter.after read)) := by
  unfold Body.readOn
  split
  · rename_i hfull
    obtain ⟨hafter, hpassed⟩ := Filter.after_append_of_isFull hfull unread
    rw [← hsplit] at hafter hpassed
    rw [← hpassed]
    refine .closing (.inl (by rw [hafter, hfull])) ?_
    rw [← filter.closesInput_after read, Filter.closesInput_of_isFull hfull]
  · rename_i hwants
    exact .reading .reading hsplit hheld (by simpa using hwants)

private theorem flushOn {front rest : List Text} (hover : input.IsOver) (hheld : input.Holds [])
    (hkeeps : filter.closesInput = false) (hflush : (filter.after fed).flush = front ++ rest) :
    FilterProgress verb filter fed input heard (filter.passedOn fed ++ front)
      (Body.flushing rest) := by
  cases rest with
  | nil =>
      rw [List.append_nil] at hflush
      rw [← hflush]
      exact .completed (.inr hover) (by simp [hkeeps]) hheld.lines_eq
  | cons line rest => exact .flushing .emitting hover hheld hflush

/-- A filter that has come to the end of its lines. -/
theorem conclude (hover : input.IsOver) (hheld : input.Holds []) :
    FilterProgress verb filter fed input heard (filter.passedOn fed)
      (Body.conclude (.filter (filter.after fed))) := by
  simp only [Body.conclude, Filter.closesInput_after]
  split
  · rename_i hcloses
    exact .closing (.inr hover) hcloses
  · rename_i hkeeps
    have hflush : FilterProgress verb filter fed input heard (filter.passedOn fed ++ [])
        (Body.flushing (filter.after fed).flush) :=
      .flushOn hover hheld (by simpa using hkeeps) rfl
    rwa [List.append_nil] at hflush

/-- A filter that has been given a line. -/
theorem handle {read unread : List Text} {line : Text} (hsplit : fed = read ++ line :: unread)
    (hheld : input.Holds unread) (hwants : (filter.after read).isFull = false) :
    FilterProgress verb filter fed input heard (filter.passedOn read)
      (Body.handle line (.filter (filter.after read))) := by
  obtain ⟨hafter, hpassed⟩ := Filter.after_concat hwants line
  simp only [Body.handle]
  split
  · rename_i next passed htake
    rw [htake] at hafter hpassed
    simp only at hafter
    rw [← hafter]
    exact .handing .emitting hsplit hheld hpassed
  · rename_i next htake
    rw [htake] at hafter hpassed
    simp only [Option.toList_none, List.append_nil] at hafter hpassed
    rw [← hafter, ← hpassed]
    exact readOn (by rw [hsplit, List.append_assoc]; rfl) hheld

/-- What hands do to the sender of the lines makes no difference to a filter, as long as
they feed no line. -/
theorem atSender {other : Channel} (h : FilterProgress verb filter fed input heard passed body)
    (hheld : ∀ {lines}, input.Holds lines → other.Holds lines)
    (hover : input.IsOver → other.IsOver) (hlines : other.lines = input.lines)
    (hthere : other.hasReceiver = input.hasReceiver) :
    FilterProgress verb filter fed other heard passed body := by
  cases h with
  | fresh held => exact .fresh (hheld held)
  | reading asks split held wants => exact .reading asks split (hheld held) wants
  | handing hands split held passes => exact .handing hands split (hheld held) passes
  | flushing hands closed held flush => exact .flushing hands (hover closed) (hheld held) flush
  | closing through closes => exact .closing (through.imp_right hover) closes
  | completed through shut spent =>
      exact .completed (through.imp_right hover) (by rwa [hthere]) (hlines.trans spent)
  | refused deaf split held passes => exact .refused deaf split (hheld held) passes
  | unheard deaf closed flush => exact .unheard deaf (hover closed) flush

/-- A line that comes waits for a filter that may want it. One that is full does as if
nothing had come. -/
theorem feed (h : FilterProgress verb filter fed input heard passed body) (hopen : ¬ input.IsOver)
    (line : Text) :
    FilterProgress verb filter (fed ++ [line]) (input.send line).1 heard passed body := by
  cases h with
  | fresh held => exact .fresh (held.send hopen line)
  | reading asks split held wants =>
      exact .reading asks (by rw [split, List.append_assoc]) (held.send hopen line) wants
  | handing hands split held passes =>
      exact .handing hands (by rw [split, List.append_assoc]; rfl) (held.send hopen line) passes
  | refused deaf split held passes =>
      exact .refused deaf (by rw [split, List.append_assoc]; rfl) (held.send hopen line) passes
  | flushing hands closed | unheard deaf closed => exact absurd closed hopen
  | closing through closes =>
      have hfull := through.resolve_right hopen
      obtain ⟨hafter, hpassed⟩ := Filter.after_append_of_isFull hfull [line]
      rw [← hpassed]
      exact .closing (.inl (by rwa [hafter])) closes
  | completed through shut spent =>
      have hfull := through.resolve_right hopen
      have hcloses : filter.closesInput = true := by
        rw [← filter.closesInput_after fed, Filter.closesInput_of_isFull hfull]
      obtain ⟨hafter, hpassed⟩ := Filter.after_append_of_isFull hfull [line]
      rw [← hpassed, ← hafter]
      have hsame : (input.send line).1 = input := by simp [Channel.send, shut hcloses]
      rw [hsame]
      exact .completed (.inl (by rwa [hafter])) shut spent

/-- The receiver of what a filter sends may go. -/
theorem atReceiver {other : Bool} (h : FilterProgress verb filter fed input heard passed body)
    (hdeaf : heard = false → other = false) :
    FilterProgress verb filter fed input other passed body := by
  cases h with
  | fresh held => exact .fresh held
  | reading asks split held wants => exact .reading asks split held wants
  | handing hands split held passes => exact .handing hands split held passes
  | flushing hands closed held flush => exact .flushing hands closed held flush
  | closing through closes => exact .closing through closes
  | completed through shut spent => exact .completed through shut spent
  | refused deaf split held passes => exact .refused (hdeaf deaf) split held passes
  | unheard deaf closed flush => exact .unheard (hdeaf deaf) closed flush

/-- A filter that has returned has come to the end of its lines or has had enough, unless
there was no receiver for a line that it had to hand on. -/
theorem ended_cases {ending : Ending}
    (h : FilterProgress verb filter fed input heard passed (.ended ending)) :
    (ending = .completed ∧ ((filter.after fed).isFull = true ∨ input.IsOver) ∧
      (filter.closesInput = true → input.hasReceiver = false) ∧ input.lines = [] ∧
      passed = filter.passedOn fed ++ (filter.after fed).flush) ∨
    (ending = .downstreamClosed ∧ heard = false ∧
      ((∃ read line told, fed = read ++ line :: input.lines ∧ passed = filter.passedOn read ∧
          filter.passedOn (read ++ [line]) = passed ++ [told]) ∨
        (filter.after fed).flush ≠ [])) := by
  cases h with
  | reading asks => cases asks
  | handing hands => cases hands
  | flushing hands => cases hands
  | completed through shut spent => exact .inl ⟨rfl, through, shut, spent, rfl⟩
  | refused deaf split held passes =>
      rw [← held.lines_eq] at split
      exact .inr ⟨rfl, deaf, .inl ⟨_, _, _, split, rfl, passes⟩⟩
  | unheard deaf closed flush => exact .inr ⟨rfl, deaf, .inr (by simp [flush])⟩

end FilterProgress

private theorem Body.start_of_filter? (h : verb.filter? = some filter) (world : World) :
    Body.start world verb = (Body.readOn filter, world) := by
  cases verb with
  | grep | uniq | wc | head | tail =>
      cases h
      rfl
  | _ => cases h

/-- A filter at work between two channels, with the books that are kept about it. What
it has passed on has been taken or waits to be taken, as long as there is a receiver. -/
structure FilterAtWork (verb : Verb) (filter : Filter) (fed taken passed : List Text) (body : Body)
    (wiring : Wiring) (input output : Channel) : Prop where
  going : wiring.cancelled = false
  reads : wiring.input = some input
  writes : wiring.output = some output
  stands : FilterProgress verb filter fed input output.hasReceiver passed body
  books : output.hasReceiver = true → passed = taken ++ output.lines

namespace FilterAtWork

/-- A filter that goes on and neither takes a line nor hands one on. -/
theorem advance (h : FilterAtWork verb filter fed taken passed body wiring input output)
    (hstands : FilterProgress verb filter fed input output.hasReceiver passed next) :
    FilterAtWork verb filter fed taken passed next wiring input output :=
  ⟨h.going, h.reads, h.writes, hstands, h.books⟩

/-- A filter that is about to hand a line on. It does so only to a receiver. -/
theorem step_handing {line : Text} {rest : Continuation}
    (h : FilterAtWork verb filter fed taken passed body wiring input output)
    (hhands : body.Hands line rest) (hgoes : body.Goes wiring world next after later)
    (hstill : next.Hands line rest →
      FilterProgress verb filter fed input output.hasReceiver passed next)
    (hsent : FilterProgress verb filter fed input output.hasReceiver (passed ++ [line])
      (Body.resume rest))
    (hrefused : output.hasReceiver = false →
      FilterProgress verb filter fed input output.hasReceiver passed (.ended .downstreamClosed)) :
    ∃ told left sent, FilterAtWork verb filter fed taken told next after left sent ∧
      (output.hasReceiver = false → told = passed ∧ sent = output) := by
  obtain ⟨-, ⟨hnext, rfl⟩ | ⟨hthere, rfl, rfl⟩ | ⟨hdeaf, rfl, rfl⟩⟩ :=
    hhands.step h.going h.writes hgoes
  · exact ⟨_, _, _, h.advance (hstill hnext), fun _ => ⟨rfl, rfl⟩⟩
  · refine ⟨_, input, _, ⟨h.going, h.reads, rfl, hsent, fun _ => ?_⟩, by simp [hthere]⟩
    rw [h.books hthere, List.append_assoc]
    simp [Channel.lines, Frame.text?]
  · exact ⟨_, _, _, h.advance (hrefused hdeaf), fun _ => ⟨rfl, rfl⟩⟩

/-- A filter that is about to read its next line. -/
theorem step_asking {read unread : List Text}
    (h : FilterAtWork verb filter fed taken (filter.passedOn read) body wiring input output)
    (hasks : body.Asks (.filter (filter.after read))) (hsplit : fed = read ++ unread)
    (hheld : input.Holds unread) (hwants : (filter.after read).isFull = false)
    (hgoes : body.Goes wiring world next after later) :
    ∃ left, FilterAtWork verb filter fed taken (filter.passedOn read) next after left output := by
  obtain ⟨-, left, rfl, hnext⟩ := hasks.step h.going h.reads hheld hgoes
  refine ⟨left, h.going, rfl, h.writes, ?_, h.books⟩
  rcases hnext with ⟨hasking, hkept⟩ | ⟨line, rest, rfl, hrest, rfl⟩ | ⟨rfl, hover, hrest, rfl⟩
  · exact .reading hasking hsplit hkept hwants
  · exact .handle hsplit hrest hwants
  · rw [List.append_nil] at hsplit
    rw [← hsplit]
    exact .conclude hover hrest

/-- A step of a filter. It hands lines on only to a receiver. -/
theorem step (h : FilterAtWork verb filter fed taken passed body wiring input output)
    (hfilter : verb.filter? = some filter) (hgoes : body.Goes wiring world next after later) :
    ∃ told left sent, FilterAtWork verb filter fed taken told next after left sent ∧
      (output.hasReceiver = false → told = passed ∧ sent = output) := by
  have hstands := h.stands
  cases hstands with
  | fresh held =>
      cases hgoes with
      | begin =>
          refine ⟨_, _, _, h.advance ?_, fun _ => ⟨rfl, rfl⟩⟩
          rw [Body.start_of_filter? hfilter]
          exact .readOn (List.nil_append fed).symm held
  | reading asks split held wants =>
      obtain ⟨left, hserves⟩ := h.step_asking asks split held wants hgoes
      exact ⟨_, left, output, hserves, fun _ => ⟨rfl, rfl⟩⟩
  | @handing read unread line passed body hands split held passes =>
      refine h.step_handing hands hgoes (fun hnext => .handing hnext split held passes) ?_
        fun hdeaf => .refused hdeaf split held passes
      rw [← passes]
      exact .readOn (by rw [split, List.append_assoc]; rfl) held
  | @flushing front rest line body hands closed held flush =>
      have hkeeps : filter.closesInput = false := by
        rw [← filter.closesInput_after fed, Bool.eq_false_iff]
        intro hcloses
        simp [Filter.flush_of_closesInput hcloses] at flush
      refine h.step_handing hands hgoes (fun hnext => .flushing hnext closed held flush) ?_
        fun hdeaf => .unheard hdeaf closed flush
      rw [List.append_assoc]
      exact .flushOn closed held hkeeps (by rw [flush, List.append_assoc]; rfl)
  | closing through closes =>
      cases hgoes with
      | close =>
          have hflush : (filter.after fed).flush = [] :=
            Filter.flush_of_closesInput ((filter.closesInput_after fed).trans closes)
          refine ⟨filter.passedOn fed ++ (filter.after fed).flush, input.dropReceiver, output,
            ⟨h.going, by simp [Wiring.closeInput, h.reads], h.writes,
              .completed through (fun _ => rfl) rfl, ?_⟩, fun _ => ⟨by simp [hflush], rfl⟩⟩
          simpa [hflush] using h.books
  | completed | refused | unheard => cases hgoes

/-- A filter that cannot go on has returned, or it waits for more lines, has read all that
came and has passed on what it makes of them. -/
theorem rest_cases (h : FilterAtWork verb filter fed taken passed body wiring input output)
    (hrest : body.step wiring world = none) :
    (∃ ending, body = .ended ending) ∨
      (∃ reader, body = .waiting reader) ∧ ¬ input.IsOver ∧ input.lines = [] ∧
        (filter.after fed).isFull = false ∧ passed = filter.passedOn fed := by
  rcases Body.rest_cases hrest with hended | ⟨reader, rfl, hready⟩
  · exact .inl hended
  · refine .inr ⟨⟨reader, rfl⟩, ?_⟩
    obtain ⟨-, hreads, -, hstands, -⟩ := h
    cases hstands with
    | @reading read unread body asks split held wants =>
        obtain ⟨rfl, hopen⟩ := held.of_not_ready hreads hready
        obtain rfl : fed = read := by rw [split, List.append_nil]
        exact ⟨hopen, held.lines_eq, wants, rfl⟩
    | handing hands => cases hands
    | flushing hands => cases hands

end FilterAtWork

/-- A filter at work on a bench, when it has passed some lines on. -/
def Benched (verb : Verb) (filter : Filter) (passed : List Text) (bench : Bench) : Prop :=
  ∃ input output,
    FilterAtWork verb filter bench.fed bench.taken passed bench.body bench.wiring input output

variable {bench last : Bench}

theorem benched_start (hfilter : verb.filter? = some filter) (world : World) :
    Benched verb filter [] (Bench.start verb world) := by
  have hinput : verb.acceptsInput = true ∧ verb.producesOutput = true := by
    cases verb with
    | grep | uniq | wc | head | tail => exact ⟨rfl, rfl⟩
    | _ => cases hfilter
  exact ⟨{}, {}, rfl, by simp [Bench.start, hinput], by simp [Bench.start, hinput],
    .fresh Channel.holds_new, fun _ => rfl⟩

theorem FilterAtWork.isHeard_eq
    (h : FilterAtWork verb filter fed taken passed body bench.wiring input output) :
    bench.isHeard = output.hasReceiver := by
  rw [Bench.isHeard, h.writes, Option.any_some]

theorem FilterAtWork.unread_eq
    (h : FilterAtWork verb filter fed taken passed body bench.wiring input output) :
    bench.unread = input.lines := by
  rw [Bench.unread, Post.arriving, h.reads, Option.map_some, Option.getD_some]

namespace Benched

/-- As long as there is a receiver, it has been sent what the filter has passed on. -/
theorem emitted_eq (h : Benched verb filter passed bench) (hheard : bench.isHeard = true) :
    bench.emitted = passed := by
  obtain ⟨input, output, hserves⟩ := h
  rw [hserves.books (hserves.isHeard_eq.symm.trans hheard), Bench.emitted, Post.arriving,
    hserves.writes, Option.map_some, Option.getD_some]

/-- A poll hands lines on only to a receiver. -/
theorem poll (h : Benched verb filter passed bench) (hfilter : verb.filter? = some filter) :
    ∃ told, Benched verb filter told bench.poll.1 ∧
      (bench.isHeard = false → told = passed) := by
  obtain ⟨told, hpolled, hsame⟩ := Bench.poll_induction
    (motive := fun later => ∃ told, Benched verb filter told later ∧
      (bench.isHeard = false → told = passed ∧ later.isHeard = false))
    (fun before next after later hbefore hgoes => by
      obtain ⟨told, ⟨input, output, hserves⟩, hsame⟩ := hbefore
      obtain ⟨more, left, sent, hnext, hkept⟩ := hserves.step hfilter hgoes
      refine ⟨more, ⟨left, sent, hnext⟩, fun hdeaf => ?_⟩
      obtain ⟨rfl, hgone⟩ := hsame hdeaf
      rw [hserves.isHeard_eq] at hgone
      obtain ⟨rfl, rfl⟩ := hkept hgone
      exact ⟨rfl, hnext.isHeard_eq.trans hgone⟩)
    ⟨passed, h, fun hdeaf => ⟨rfl, hdeaf⟩⟩
  exact ⟨told, hpolled, fun hdeaf => (hsame hdeaf).1⟩

/-- What hands do to the sender makes no difference, as long as they feed no line. -/
theorem atSender {change : Channel → Channel} (h : Benched verb filter passed bench)
    (hact : bench.atSender change = some last)
    (hheld : ∀ {channel lines}, channel.hasSender = true → channel.Holds lines →
      (change channel).Holds lines)
    (hover : ∀ channel : Channel, channel.IsOver → (change channel).IsOver)
    (hlines : ∀ channel, (change channel).lines = channel.lines)
    (hthere : ∀ channel, (change channel).hasReceiver = channel.hasReceiver) :
    Benched verb filter passed last ∧ last.isHeard = bench.isHeard := by
  obtain ⟨input, output, hserves⟩ := h
  obtain ⟨channel, hinput, hsender, rfl⟩ := Bench.atSender_eq_some hact
  obtain rfl : input = channel := Option.some.inj (hserves.reads.symm.trans hinput)
  have hstands := hserves.stands.atSender (hheld hsender) (hover input) (hlines input)
    (hthere input)
  exact ⟨⟨_, output, hserves.going, rfl, hserves.writes, hstands, hserves.books⟩, rfl⟩

/-- Nor does it make a difference to a filter whether what it has passed on is taken. -/
theorem atReceiver {change : Channel → Channel × List Text}
    (h : Benched verb filter passed bench) (hact : bench.atReceiver change = some last)
    (hlines : ∀ channel, (change channel).1.hasReceiver = true →
      (change channel).2 ++ (change channel).1.lines = channel.lines) :
    Benched verb filter passed last ∧ bench.isHeard = true := by
  obtain ⟨input, output, hserves⟩ := h
  obtain ⟨channel, houtput, hheard, rfl⟩ := Bench.atReceiver_eq_some hact
  obtain rfl : output = channel := Option.some.inj (hserves.writes.symm.trans houtput)
  have hstands : FilterProgress verb filter bench.fed input (change output).1.hasReceiver passed
      bench.body := hserves.stands.atReceiver (by simp [hheard])
  refine ⟨⟨input, _, hserves.going, hserves.reads, rfl, hstands, fun hthere => ?_⟩, ?_⟩
  · rw [hserves.books hheard, List.append_assoc, hlines output hthere]
  · rw [hserves.isHeard_eq, hheard]

private theorem feed {line : Text} {accepted : Bool} (h : Benched verb filter passed bench)
    (hfeed : bench.feed line = some (last, accepted)) :
    Benched verb filter passed last ∧ last.isHeard = bench.isHeard := by
  obtain ⟨input, output, hserves⟩ := h
  obtain ⟨channel, hinput, hopen, hlast⟩ := Bench.feed_eq_some hfeed
  obtain ⟨rfl, -⟩ := Prod.mk.inj hlast
  obtain rfl : input = channel := Option.some.inj (hserves.reads.symm.trans hinput)
  have hstands := hserves.stands.feed hopen line
  exact ⟨⟨_, output, hserves.going, rfl, hserves.writes, hstands, hserves.books⟩, rfl⟩

/-- Whatever is done on a bench, a filter goes on with its work there, and without a
receiver it hands nothing more on. -/
theorem act {handling : Handling} (h : Benched verb filter passed bench)
    (hfilter : verb.filter? = some filter) (hact : bench.act handling = some last) :
    ∃ told, Benched verb filter told last ∧
      (bench.isHeard = false → told = passed ∧ last.isHeard = false) := by
  have hkeep (hafter : Benched verb filter passed last ∧ last.isHeard = bench.isHeard) :
      ∃ told, Benched verb filter told last ∧
        (bench.isHeard = false → told = passed ∧ last.isHeard = false) :=
    ⟨passed, hafter.1, fun hdeaf => ⟨rfl, hafter.2.trans hdeaf⟩⟩
  have htake (hafter : Benched verb filter passed last ∧ bench.isHeard = true) :
      ∃ told, Benched verb filter told last ∧
        (bench.isHeard = false → told = passed ∧ last.isHeard = false) :=
    ⟨passed, hafter.1, by simp [hafter.2]⟩
  cases handling with
  | feed line =>
      obtain ⟨⟨next, accepted⟩, hfeed, rfl⟩ := Option.map_eq_some_iff.mp hact
      exact hkeep (h.feed hfeed)
  | mark =>
      exact hkeep (h.atSender hact (fun hsender hheld => hheld.finish hsender)
        (fun channel _ => channel.isOver_finish) Channel.lines_finish Channel.hasReceiver_finish)
  | hangUp =>
      exact hkeep (h.atSender hact (fun _ hheld => hheld.dropSender) (fun _ _ => .inr rfl)
        (fun _ => rfl) fun _ => rfl)
  | poll =>
      obtain rfl := Option.some.inj hact
      obtain ⟨told, hafter, hsame⟩ := h.poll hfilter
      have hheard := (Bench.isFed_congr bench.hands_poll).2
      exact ⟨told, hafter, fun hdeaf => ⟨hsame hdeaf, hheard.trans hdeaf⟩⟩
  | takeLine => exact htake (h.atReceiver hact fun channel _ => channel.lines_takeLine)
  | takeFrame => exact htake (h.atReceiver hact fun channel _ => channel.lines_takeFrame)
  | takeAll => exact htake (h.atReceiver hact fun channel _ => List.append_nil _)
  | turnAway => exact htake (h.atReceiver hact fun _ hthere => absurd hthere Bool.false_ne_true)

variable {handlings : List Handling}

theorem follow (h : Benched verb filter passed bench) (hfilter : verb.filter? = some filter)
    (hfollow : bench.follow handlings = some last) : ∃ told, Benched verb filter told last :=
  Bench.follow_induction (motive := fun bench => ∃ passed, Benched verb filter passed bench)
    (fun _ _ _ hbefore hact => by
      obtain ⟨passed, hbefore⟩ := hbefore
      obtain ⟨told, hafter, -⟩ := hbefore.act hfilter hact
      exact ⟨told, hafter⟩)
    ⟨passed, h⟩ hfollow

theorem follow_of_unheard (h : Benched verb filter passed bench)
    (hfilter : verb.filter? = some filter) (hdeaf : bench.isHeard = false)
    (hfollow : bench.follow handlings = some last) :
    Benched verb filter passed last ∧ last.isHeard = false :=
  Bench.follow_induction
    (motive := fun bench => Benched verb filter passed bench ∧ bench.isHeard = false)
    (fun _ _ _ hbefore hact => by
      obtain ⟨told, hafter, hsame⟩ := hbefore.1.act hfilter hact
      obtain ⟨rfl, hdeaf⟩ := hsame hbefore.2
      exact ⟨hafter, hdeaf⟩)
    ⟨h, hdeaf⟩ hfollow

end Benched

end LineShell
