import LineShell.Proofs.Bench
import LineShell.Proofs.Sinks

/-!
The two ends of a pipeline on a bench. A source has nothing to wait for: it returns at the
first poll, and has sent all that it found in the world, as long as there is a receiver.
A sink reads all lines that are fed to it, and once no more can come it returns and has
left the world that these lines make.
-/

namespace LineShell

variable {bench last : Bench} {world origin : World} {verb : Verb} {lines fed : List Text}
  {handlings : List Handling}

/-! Sources. -/

/-- A body of a source that still has these lines to send. -/
inductive Body.Sends (world : World) : List Text → Body → Prop
  | fresh {verb : Verb} (source : verb.isSource = true) :
      Sends world (verb.reads world) (.fresh verb)
  | handing {line : Text} {rest : List Text} {body : Body}
      (hands : body.Hands line (.flush rest)) : Sends world (line :: rest) body
  | completed : Sends world [] (.ended .completed)

private theorem Body.sends_flushing (world : World) (lines : List Text) :
    (Body.flushing lines).Sends world lines := by
  cases lines with
  | nil => exact .completed
  | cons line rest => exact .handing .emitting

private theorem Body.start_of_isSource (h : verb.isSource = true) (world : World) :
    Body.start world verb = (Body.flushing (verb.reads world), world) := by
  cases verb with
  | cat | ls | pwd => rfl
  | _ => cases h

/-- A source at work on a bench: as long as there is a receiver, these lines have been
sent or are still to be sent. -/
def SourceAtWork (lines : List Text) (bench : Bench) : Prop :=
  bench.isHeard = true → bench.wiring.cancelled = false ∧
    ∃ left, bench.body.Sends bench.world left ∧ lines = bench.emitted ++ left

namespace SourceAtWork

private theorem start (h : verb.isSource = true) (world : World) :
    SourceAtWork (verb.reads world) (Bench.start verb world) := by
  refine fun _ => ⟨rfl, _, .fresh h, ?_⟩
  have houtput : verb.producesOutput = true := (Bool.and_eq_true_iff.mp h).1
  simp [Bench.emitted, Bench.start, Post.arriving, houtput, Channel.lines]

private theorem step {next : Body} {after : Wiring} {later : World} (h : SourceAtWork lines bench)
    (hgoes : bench.body.Goes bench.wiring bench.world next after later) :
    SourceAtWork lines { bench with body := next, wiring := after, world := later } := by
  obtain ⟨body, wiring, world, fed, taken⟩ := bench
  intro hheard
  have hsame : Bench.isHeard ⟨next, after, later, fed, taken⟩ =
      Bench.isHeard ⟨body, wiring, world, fed, taken⟩ :=
    (Bench.isFed_congr (Body.hands_of_goes hgoes)).2
  rw [hsame] at hheard
  obtain ⟨hgoing, left, hsends, rfl⟩ := h hheard
  simp only at hsends hgoing hgoes
  cases hsends with
  | fresh hsource =>
      cases hgoes with
      | begin =>
          rw [Body.start_of_isSource hsource]
          exact ⟨hgoing, _, Body.sends_flushing _ _, rfl⟩
  | @handing line rest body hands =>
      obtain ⟨output, houtput, hthere⟩ : ∃ output, wiring.output = some output ∧
        output.hasReceiver = true := (Option.any_eq_true _ _).mp hheard
      obtain ⟨rfl, ⟨hnext, rfl⟩ | ⟨-, rfl, rfl⟩ | ⟨hdeaf, -⟩⟩ := hands.step hgoing houtput hgoes
      · exact ⟨hgoing, _, .handing hnext, rfl⟩
      · refine ⟨hgoing, rest, Body.sends_flushing _ _, ?_⟩
        simp [Bench.emitted, Post.arriving, houtput, Channel.lines, Frame.text?]
      · rw [hthere] at hdeaf
        cases hdeaf
  | completed => cases hgoes

private theorem act {handling : Handling} (h : SourceAtWork lines bench)
    (hact : bench.act handling = some last) : SourceAtWork lines last := by
  have htake {change : Channel → Channel × List Text}
      (hact : bench.atReceiver change = some last)
      (hlines : ∀ channel : Channel, (change channel).1.hasReceiver = true →
        (change channel).2 ++ (change channel).1.lines = channel.lines) :
    SourceAtWork lines last := by
    obtain ⟨channel, houtput, hthere, rfl⟩ := Bench.atReceiver_eq_some hact
    intro hheard
    obtain ⟨hgoing, left, hsends, rfl⟩ := h (by simp [Bench.isHeard, houtput, hthere])
    have hkept := hlines channel (by simpa [Bench.isHeard] using hheard)
    exact ⟨hgoing, left, hsends, by simp [Bench.emitted, Post.arriving, houtput, hkept]⟩
  cases handling with
  | feed line =>
      obtain ⟨⟨after, accepted⟩, hfeed, rfl⟩ := Option.map_eq_some_iff.mp hact
      obtain ⟨channel, -, -, hafter⟩ := Bench.feed_eq_some hfeed
      rw [(Prod.mk.inj hafter).1]
      exact h
  | mark | hangUp =>
      obtain ⟨channel, -, -, rfl⟩ := Bench.atSender_eq_some hact
      exact h
  | poll =>
      obtain rfl := Option.some.inj hact
      exact Bench.poll_induction (fun _ _ _ _ hbefore hgoes => hbefore.step hgoes) h
  | takeLine => exact htake hact fun channel _ => channel.lines_takeLine
  | takeFrame => exact htake hact fun channel _ => channel.lines_takeFrame
  | takeAll => exact htake hact fun channel _ => List.append_nil _
  | turnAway => exact htake hact fun _ hthere => absurd hthere Bool.false_ne_true

end SourceAtWork

/-- The first poll of a source finds all its lines, and the end of its work. -/
theorem Bench.poll_source (h : verb.isSource = true)
    (hfollow : (start verb world).follow handlings = some bench) (hheard : bench.isHeard = true) :
    bench.poll.1.emitted = verb.reads world ∧
      bench.poll.2 = if bench.hasReturned then .gone else .returned .completed := by
  have hbench : SourceAtWork (verb.reads world) bench :=
    follow_induction (fun _ _ _ hbefore hact => hbefore.act hact) (.start h world) hfollow
  have hpolled : SourceAtWork (verb.reads world) bench.poll.1 :=
    hbench.act (show bench.act .poll = some bench.poll.1 from rfl)
  obtain ⟨-, left, hsends, hall⟩ := hpolled ((isFed_congr bench.hands_poll).2.trans hheard)
  rw [hall, answer_poll]
  rcases bench.body_poll with ⟨reader, hwaiting⟩ | ⟨ending, hended⟩
  · rw [hwaiting] at hsends
    cases hsends with
    | handing hands => cases hands
  · rw [hended] at hsends ⊢
    cases hsends with
    | handing hands => cases hands
    | completed => exact ⟨(List.append_nil _).symm, rfl⟩

/-! Sinks. -/

/-- No verb begins with a filter as the reader that its lines are written with. -/
theorem Reader.writeAll_ne_filter (verb : Verb) (origin : World) (lines : List Text)
    (filter : Filter) (world : World) :
    writeAll (verb.opening origin) lines ≠ (.filter filter, world) := by
  suffices hreader : (writeAll (verb.opening origin) lines).1 ≠ .filter filter from
    fun hwritten => hreader (congrArg Prod.fst hwritten)
  induction lines using List.reverseRecOn with
  | nil =>
      cases verb with
      | redirect path =>
          simp only [writeAll, List.foldl_nil, Verb.opening]
          split <;> rintro ⟨⟩
      | _ => rintro ⟨⟩
  | append_singleton lines line ih =>
      rw [writeAll_concat]
      cases hreader : (writeAll (verb.opening origin) lines).1 with
      | filter other =>
          rw [hreader] at ih
          exact ih
      | _ => rintro ⟨⟩

private theorem Body.start_of_isSink (h : verb.isSink = true) (world : World) :
    Body.start world verb = (.reading (verb.opening world).1, (verb.opening world).2) := by
  cases verb with
  | print => rfl
  | redirect path =>
      cases hopen : world.files.openFile? path <;> simp [Body.start, Verb.opening, hopen]
  | _ => cases h

/-- Where a sink stands when some lines have been fed to it, and the world that it has
made of those that it has written. -/
inductive SinkProgress (verb : Verb) (origin : World) (fed : List Text) (input : Channel) :
    Body → World → Prop
  | fresh (held : input.Holds fed) : SinkProgress verb origin fed input (.fresh verb) origin
  | reading {read unread : List Text} {reader : Reader} {body : Body} {world : World}
      (asks : body.Asks reader) (split : fed = read ++ unread) (held : input.Holds unread)
      (written : Reader.writeAll (verb.opening origin) read = (reader, world)) :
      SinkProgress verb origin fed input body world
  | writing {read unread : List Text} {line : Text} {reader : Reader} {world : World}
      (split : fed = read ++ line :: unread) (held : input.Holds unread)
      (written : Reader.writeAll (verb.opening origin) read = (reader, world)) :
      SinkProgress verb origin fed input (.writing line reader) world
  | storing {place : Place} {bytes : Bytes} {world : World} (closed : input.IsOver)
      (written : Reader.writeAll (verb.opening origin) fed = (.file place bytes, world)) :
      SinkProgress verb origin fed input (.storing place bytes) world
  | completed (closed : input.IsOver) :
      SinkProgress verb origin fed input (.ended .completed) (verb.effect origin fed)

variable {body next : Body} {wiring after : Wiring} {later : World} {input : Channel}

namespace SinkProgress

/-- A sink that has come to the end of its lines. -/
theorem conclude {reader : Reader} (hover : input.IsOver)
    (hwritten : Reader.writeAll (verb.opening origin) fed = (reader, world)) :
    SinkProgress verb origin fed input (Body.conclude reader) world := by
  have heffect : reader.drain world = verb.effect origin fed := by rw [Verb.effect, hwritten]
  cases reader with
  | filter filter => exact (Reader.writeAll_ne_filter verb origin _ filter world hwritten).elim
  | file place held => exact .storing hover hwritten
  | console | nowhere =>
      rw [show world = verb.effect origin fed from heffect]
      exact .completed hover

/-- A sink that has been given a line. -/
theorem handle {read unread : List Text} {line : Text} {reader : Reader}
    (hsplit : fed = read ++ line :: unread) (hheld : input.Holds unread)
    (hwritten : Reader.writeAll (verb.opening origin) read = (reader, world)) :
    SinkProgress verb origin fed input (Body.handle line reader) world := by
  cases reader with
  | filter filter => exact (Reader.writeAll_ne_filter verb origin _ filter world hwritten).elim
  | _ => exact .writing hsplit hheld hwritten

/-- What hands do to the sender makes no difference to a sink, as long as they feed no
line. -/
theorem atSender {other : Channel} (h : SinkProgress verb origin fed input body world)
    (hheld : ∀ {lines}, input.Holds lines → other.Holds lines)
    (hover : input.IsOver → other.IsOver) : SinkProgress verb origin fed other body world := by
  cases h with
  | fresh held => exact .fresh (hheld held)
  | reading asks split held written => exact .reading asks split (hheld held) written
  | writing split held written => exact .writing split (hheld held) written
  | storing closed written => exact .storing (hover closed) written
  | completed closed => exact .completed (hover closed)

/-- A line that comes waits for the sink. -/
theorem feed (h : SinkProgress verb origin fed input body world) (hopen : ¬ input.IsOver)
    (line : Text) : SinkProgress verb origin (fed ++ [line]) (input.send line).1 body world := by
  cases h with
  | fresh held => exact .fresh (held.send hopen line)
  | reading asks split held written =>
      exact .reading asks (by rw [split, List.append_assoc]) (held.send hopen line) written
  | writing split held written =>
      exact .writing (by rw [split, List.append_assoc]; rfl) (held.send hopen line) written
  | storing closed | completed closed => exact absurd closed hopen

/-- A step of a sink. -/
theorem step (h : SinkProgress verb origin fed input body world) (hsink : verb.isSink = true)
    (hgoing : wiring.cancelled = false) (hinput : wiring.input = some input)
    (hgoes : body.Goes wiring world next after later) :
    ∃ left, after.cancelled = false ∧ after.input = some left ∧
      SinkProgress verb origin fed left next later := by
  cases h with
  | fresh held =>
      cases hgoes with
      | begin =>
          rw [Body.start_of_isSink hsink]
          exact ⟨input, hgoing, hinput, .reading .reading (List.nil_append fed).symm held rfl⟩
  | reading asks split held written =>
      obtain ⟨rfl, left, rfl, hnext⟩ := asks.step hgoing hinput held hgoes
      refine ⟨left, hgoing, rfl, ?_⟩
      rcases hnext with
        ⟨hasking, hkept⟩ | ⟨line, rest, rfl, hrest, rfl⟩ | ⟨rfl, hover, -, rfl⟩
      · exact .reading hasking split hkept written
      · exact .handle split hrest written
      · rw [List.append_nil] at split
        rw [← split] at written
        exact .conclude hover written
  | @writing read unread line reader world split held written =>
      cases hgoes with
      | write =>
          have hnext : Reader.writeAll (verb.opening origin) (read ++ [line]) =
              Body.writeLine world line reader := by rw [Reader.writeAll_concat, written]
          exact ⟨input, hgoing, hinput,
            .reading .reading (by rw [split, List.append_assoc]; rfl) held hnext⟩
  | @storing place bytes world closed written =>
      cases hgoes with
      | store =>
          have heffect : verb.effect origin fed = world.append place bytes := by
            rw [Verb.effect, written]
            rfl
          rw [← heffect]
          exact ⟨input, hgoing, hinput, .completed closed⟩
  | completed closed => cases hgoes

end SinkProgress

/-- A sink at work on a bench. -/
def SinkAtWork (verb : Verb) (origin : World) (bench : Bench) : Prop :=
  bench.wiring.cancelled = false ∧ ∃ input, bench.wiring.input = some input ∧
    SinkProgress verb origin bench.fed input bench.body bench.world

namespace SinkAtWork

private theorem start (h : verb.isSink = true) (origin : World) :
    SinkAtWork verb origin (Bench.start verb origin) := by
  have hinput : verb.acceptsInput = true := (Bool.and_eq_true_iff.mp h).1
  exact ⟨rfl, {}, by simp [Bench.start, hinput], .fresh Channel.holds_new⟩

private theorem poll (h : SinkAtWork verb origin bench) (hsink : verb.isSink = true) :
    SinkAtWork verb origin bench.poll.1 :=
  Bench.poll_induction
    (fun _ _ _ _ ⟨hgoing, _, hinput, hstores⟩ hgoes => by
      obtain ⟨left, hafter, hleft, hnext⟩ := hstores.step hsink hgoing hinput hgoes
      exact ⟨hafter, left, hleft, hnext⟩) h

private theorem atSender {change : Channel → Channel} (h : SinkAtWork verb origin bench)
    (hact : bench.atSender change = some last)
    (hheld : ∀ {channel lines}, channel.hasSender = true → channel.Holds lines →
      (change channel).Holds lines)
    (hover : ∀ channel : Channel, channel.IsOver → (change channel).IsOver) :
    SinkAtWork verb origin last := by
  obtain ⟨hgoing, input, hinput, hstores⟩ := h
  obtain ⟨channel, hchannel, hsender, rfl⟩ := Bench.atSender_eq_some hact
  obtain rfl : input = channel := Option.some.inj (hinput.symm.trans hchannel)
  exact ⟨hgoing, _, rfl, hstores.atSender (hheld hsender) (hover input)⟩

private theorem act {handling : Handling} (h : SinkAtWork verb origin bench)
    (hsink : verb.isSink = true)
    (hact : bench.act handling = some last) : SinkAtWork verb origin last := by
  cases handling with
  | feed line =>
      obtain ⟨hgoing, input, hinput, hstores⟩ := h
      obtain ⟨⟨after, accepted⟩, hfeed, rfl⟩ := Option.map_eq_some_iff.mp hact
      obtain ⟨channel, hchannel, hopen, hafter⟩ := Bench.feed_eq_some hfeed
      obtain rfl : input = channel := Option.some.inj (hinput.symm.trans hchannel)
      rw [(Prod.mk.inj hafter).1]
      exact ⟨hgoing, _, rfl, hstores.feed hopen line⟩
  | mark =>
      exact h.atSender hact (fun hsender hheld => hheld.finish hsender)
        fun channel _ => channel.isOver_finish
  | hangUp => exact h.atSender hact (fun _ hheld => hheld.dropSender) fun _ _ => .inr rfl
  | poll =>
      obtain rfl := Option.some.inj hact
      exact h.poll hsink
  | takeLine | takeFrame | takeAll | turnAway =>
      obtain ⟨channel, -, -, rfl⟩ := Bench.atReceiver_eq_some hact
      exact h

end SinkAtWork

/-- When no more lines can come to a sink, the first poll finds it at its end, with the
world that it makes of all lines that came. -/
theorem Bench.poll_sink (h : verb.isSink = true)
    (hfollow : (start verb origin).follow handlings = some bench) (hover : bench.isFed = false) :
    bench.poll.1.world = verb.effect origin bench.fed ∧
      bench.poll.2 = if bench.hasReturned then .gone else .returned .completed := by
  have hbench : SinkAtWork verb origin bench :=
    follow_induction (fun _ _ _ hbefore hact => hbefore.act h hact) (.start h origin) hfollow
  obtain ⟨-, input, hinput, hstores⟩ := hbench.poll h
  have hclosed : input.IsOver := by
    have hfed := isFed_iff hinput
    rw [(isFed_congr bench.hands_poll).1, hover] at hfed
    simpa using hfed
  rw [bench.books_poll.1] at hstores
  rw [answer_poll]
  rcases Body.rest_cases bench.step_poll with ⟨ending, hended⟩ | ⟨reader, hwaiting, hready⟩
  · rw [hended] at hstores ⊢
    generalize hworld : bench.poll.1.world = later at hstores
    cases hstores with
    | reading asks => cases asks
    | completed => exact ⟨rfl, rfl⟩
  · rw [hwaiting] at hstores
    cases hstores with
    | reading _ _ held => exact absurd hclosed (held.of_not_ready hinput hready).2

end LineShell
