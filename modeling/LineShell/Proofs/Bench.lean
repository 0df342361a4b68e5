import LineShell.Proofs.ExpectedLines

/-!
A body on its own, with the far ends of its channels held by hand. Lines are fed to it,
the end of the lines is marked or their sender dropped, what it has sent is taken or the
receiver dropped, and from time to time it is polled: it then runs until it has returned
or has to wait. Nothing is ever cancelled. Whatever is said of a body for every order of
these is said of it for every way in which its lines can come.
-/

namespace LineShell

/-- A body on a bench, with the books that are kept about it. -/
structure Bench where
  body : Body
  wiring : Wiring
  world : World
  /-- All lines that have been fed to it, those that nobody took among them. -/
  fed : List Text := []
  /-- The lines that have been taken from it. -/
  taken : List Text := []

/-- What a hand can do on a bench. -/
inductive Handling where
  | feed (line : Text)
  /-- Marks the end of the lines. -/
  | mark
  /-- Drops the sender of the lines. -/
  | hangUp
  | poll
  | takeLine
  | takeFrame
  | takeAll
  /-- Drops the receiver of what the body sends. -/
  | turnAway
deriving DecidableEq, Repr

/-- What a poll answers. -/
inductive Polled where
  | pending
  | returned (ending : Ending)
  /-- The body had returned before. -/
  | gone
deriving DecidableEq, Repr

/-- Whether no more lines can come. -/
def Channel.IsOver (channel : Channel) : Prop :=
  channel.ended = true ∨ channel.hasSender = false

def Reception.lines : Reception → List Text
  | .line text => [text]
  | .finished | .waiting => []

def FrameReception.lines : FrameReception → List Text
  | .frame sent => sent.text?.toList
  | .closed | .waiting => []

namespace Bench

/-- A verb that has not begun, with the channels that it can use. -/
def start (verb : Verb) (world : World) : Bench :=
  { body := .fresh verb
    wiring :=
      { input := if verb.acceptsInput then some {} else none
        output := if verb.producesOutput then some {} else none }
    world }

/-- Whether more lines may come. -/
def isFed (bench : Bench) : Bool :=
  bench.wiring.input.any fun channel => channel.hasSender && !channel.ended

/-- Whether there is a receiver for what the body sends. -/
def isHeard (bench : Bench) : Bool :=
  bench.wiring.output.any Channel.hasReceiver

def hasReturned (bench : Bench) : Bool :=
  match bench.body with
  | .ended _ => true
  | _ => false

/-- The lines that the body has sent to a receiver so far. -/
def emitted (bench : Bench) : List Text :=
  bench.taken ++ Post.arriving bench.wiring.output

/-- The lines that wait for the body. -/
def unread (bench : Bench) : List Text :=
  Post.arriving bench.wiring.input

/-- Feeds a line where lines may come, and tells whether it was taken in. -/
def feed (bench : Bench) (line : Text) : Option (Bench × Bool) :=
  match bench.wiring.input with
  | some channel =>
    if channel.hasSender && !channel.ended then
      let (channel, accepted) := channel.send line
      some ({ bench with
        wiring := { bench.wiring with input := some channel }
        fed := bench.fed ++ [line] }, accepted)
    else none
  | none => none

/-- Lets the body run, if it has not returned. -/
def poll (bench : Bench) : Bench × Polled :=
  if bench.hasReturned then (bench, .gone)
  else
    let (body, wiring, world) := bench.body.run bench.wiring bench.world
    ({ bench with body, wiring, world },
      match body with
      | .ended ending => .returned ending
      | _ => .pending)

/-- Does something with the sender of the lines, where there is one. -/
def atSender (bench : Bench) (change : Channel → Channel) : Option Bench :=
  match bench.wiring.input with
  | some channel =>
    if channel.hasSender then
      some { bench with wiring := { bench.wiring with input := some (change channel) } }
    else none
  | none => none

/-- Does something with the receiver, where there is one, that may yield lines. -/
def atReceiver (bench : Bench) (change : Channel → Channel × List Text) : Option Bench :=
  match bench.wiring.output with
  | some channel =>
    if channel.hasReceiver then
      some { bench with
        wiring := { bench.wiring with output := some (change channel).1 }
        taken := bench.taken ++ (change channel).2 }
    else none
  | none => none

/-- The bench when a hand has done something, where it can be done. No line is fed behind
the end mark. -/
def act (bench : Bench) : Handling → Option Bench
  | .feed line => (bench.feed line).map Prod.fst
  | .mark => bench.atSender fun channel => channel.finish.1
  | .hangUp => bench.atSender Channel.dropSender
  | .poll => some bench.poll.1
  | .takeLine => bench.atReceiver fun channel => (channel.takeLine.1, channel.takeLine.2.lines)
  | .takeFrame => bench.atReceiver fun channel => (channel.takeFrame.1, channel.takeFrame.2.lines)
  | .takeAll =>
    bench.atReceiver fun channel =>
      (channel.takeAll.1, channel.takeAll.2.filterMap Frame.text?)
  | .turnAway => bench.atReceiver fun channel => (channel.dropReceiver, [])

/-- The bench when hands have done these things one after the other, where they can be
done. -/
def follow (bench : Bench) : List Handling → Option Bench
  | [] => some bench
  | handling :: handlings =>
    match bench.act handling with
    | some next => next.follow handlings
    | none => none

variable {bench last : Bench}

theorem feed_eq_some {line : Text} {fed : Bench × Bool} (h : bench.feed line = some fed) :
    ∃ channel, bench.wiring.input = some channel ∧ ¬ channel.IsOver ∧
      fed = ({ bench with
        wiring := { bench.wiring with input := some (channel.send line).1 }
        fed := bench.fed ++ [line] }, (channel.send line).2) := by
  unfold feed at h
  split at h
  · rename_i channel hinput
    split at h
    · rename_i hopen
      exact ⟨channel, hinput, by simpa [Channel.IsOver, and_comm] using hopen,
        (Option.some.inj h).symm⟩
    · cases h
  · cases h

theorem atSender_eq_some {change : Channel → Channel} (h : bench.atSender change = some last) :
    ∃ channel, bench.wiring.input = some channel ∧ channel.hasSender = true ∧
      last = { bench with wiring := { bench.wiring with input := some (change channel) } } := by
  unfold atSender at h
  split at h
  · rename_i channel hinput
    split at h
    · rename_i hsender
      exact ⟨channel, hinput, hsender, (Option.some.inj h).symm⟩
    · cases h
  · cases h

theorem atReceiver_eq_some {change : Channel → Channel × List Text}
    (h : bench.atReceiver change = some last) :
    ∃ channel, bench.wiring.output = some channel ∧ channel.hasReceiver = true ∧
      last = { bench with
        wiring := { bench.wiring with output := some (change channel).1 }
        taken := bench.taken ++ (change channel).2 } := by
  unfold atReceiver at h
  split at h
  · rename_i channel houtput
    split at h
    · rename_i hthere
      exact ⟨channel, houtput, hthere, (Option.some.inj h).symm⟩
    · cases h
  · cases h

/-- What holds of a bench and is kept by all that can be done on it holds after any
number of these. -/
theorem follow_induction {motive : Bench → Prop}
    (step : ∀ handling before after, motive before → before.act handling = some after →
      motive after) (start : motive bench) {handlings : List Handling}
    (h : bench.follow handlings = some last) : motive last := by
  induction handlings generalizing bench with
  | nil =>
      obtain rfl : bench = last := Option.some.inj h
      exact start
  | cons handling handlings ih =>
      cases hact : bench.act handling with
      | none => simp [follow, hact] at h
      | some next =>
          rw [follow, hact] at h
          exact ih (step handling bench next start hact) h

end Bench

namespace Channel

/-- These lines wait for the receiver of a channel, and behind them the end mark, if it
has been sent and not been taken. -/
structure Holds (channel : Channel) (lines : List Text) : Prop where
  there : channel.hasReceiver = true
  queue : channel.queue =
    lines.map .line ++ if channel.ended && !channel.done then [.finish] else []
  told : channel.done = true → lines = [] ∧ channel.IsOver

variable {channel after : Channel} {lines : List Text}

theorem holds_new : ({} : Channel).Holds [] :=
  ⟨rfl, rfl, nofun⟩

private theorem lines_map_line (texts : List Text) :
    (texts.map Frame.line).filterMap Frame.text? = texts := by
  induction texts with
  | nil => rfl
  | cons text rest ih => simp [Frame.text?, ih]

theorem Holds.lines_eq (h : channel.Holds lines) : channel.lines = lines := by
  rw [Channel.lines, h.queue, List.filterMap_append, lines_map_line]
  split <;> simp [Frame.text?]

/-- A channel that is not over has not told its end. -/
theorem Holds.not_done (h : channel.Holds lines) (hopen : ¬ channel.IsOver) :
    channel.ended = false ∧ channel.done = false := by
  rw [Bool.eq_false_iff, Bool.eq_false_iff]
  exact ⟨fun hended => hopen (.inl hended), fun hdone => hopen (h.told hdone).2⟩

/-- A line that is sent waits behind the others. -/
theorem Holds.send (h : channel.Holds lines) (hopen : ¬ channel.IsOver) (line : Text) :
    (channel.send line).1.Holds (lines ++ [line]) := by
  obtain ⟨hended, hdone⟩ := h.not_done hopen
  rw [Channel.send, if_pos h.there]
  refine ⟨h.there, ?_, by simp [hdone]⟩
  simp [h.queue, hended]

theorem Holds.finish (h : channel.Holds lines) (hsender : channel.hasSender = true) :
    channel.finish.1.Holds lines := by
  unfold Channel.finish
  split
  · exact h
  · rename_i hmarked
    have hopen : ¬ channel.IsOver := by simp [IsOver, hmarked, hsender]
    obtain ⟨hended, hdone⟩ := h.not_done hopen
    rw [if_pos h.there]
    refine ⟨h.there, ?_, by simp [hdone]⟩
    simp [h.queue, hended, hdone]

theorem Holds.dropSender (h : channel.Holds lines) : channel.dropSender.Holds lines :=
  ⟨h.there, h.queue, fun hdone => ⟨(h.told hdone).1, .inr rfl⟩⟩

/-- Taking a line changes nothing about who is at the ends of a channel. -/
theorem ends_takeLine (channel : Channel) :
    channel.takeLine.1.hasSender = channel.hasSender ∧
      channel.takeLine.1.ended = channel.ended ∧
      channel.takeLine.1.hasReceiver = channel.hasReceiver := by
  unfold takeLine
  split
  · exact ⟨rfl, rfl, rfl⟩
  · split
    · exact ⟨rfl, rfl, rfl⟩
    · exact ⟨rfl, rfl, rfl⟩
    · split <;> exact ⟨rfl, rfl, rfl⟩

/-- The lines that wait in a channel are those that a receiver takes and those that it
leaves there. -/
theorem lines_takeLine (channel : Channel) :
    channel.takeLine.2.lines ++ channel.takeLine.1.lines = channel.lines := by
  unfold takeLine
  split
  · rfl
  · split
    · rename_i hqueue
      rw [lines, lines, hqueue]
      rfl
    · rename_i hqueue
      rw [lines, lines, hqueue]
      rfl
    · split <;> rfl

theorem lines_takeFrame (channel : Channel) :
    channel.takeFrame.2.lines ++ channel.takeFrame.1.lines = channel.lines := by
  unfold takeFrame
  split
  · rename_i frame rest hqueue
    rw [lines, lines, hqueue]
    cases frame <;> rfl
  · split <;> rfl

/-- The end mark is no line. -/
theorem lines_finish (channel : Channel) : channel.finish.1.lines = channel.lines := by
  unfold finish
  split
  · rfl
  · split
    · simp [lines, Frame.text?]
    · rfl

theorem hasReceiver_finish (channel : Channel) :
    channel.finish.1.hasReceiver = channel.hasReceiver := by
  unfold finish
  split
  · rfl
  · split <;> rfl

theorem isOver_finish (channel : Channel) : channel.finish.1.IsOver := by
  unfold Channel.finish
  split
  · rename_i hended
    exact .inl hended
  · split <;> exact .inl rfl

/-- What the receiver gets that asks for a line: the first of those that wait, or else the
end where no more can come. -/
theorem Holds.takeLine (h : channel.Holds lines) :
    match channel.takeLine.2 with
    | .line line => ∃ rest, lines = line :: rest ∧ channel.takeLine.1.Holds rest
    | .finished => lines = [] ∧ channel.IsOver ∧ channel.takeLine.1.Holds []
    | .waiting => lines = [] ∧ ¬ channel.IsOver ∧ channel.takeLine.1 = channel := by
  obtain ⟨hthere, hqueue, htold⟩ := h
  cases hdone : channel.done with
  | true =>
      obtain ⟨rfl, hover⟩ := htold hdone
      simp only [Channel.takeLine, hdone, if_true]
      exact ⟨trivial, hover, hthere, hqueue, htold⟩
  | false =>
      cases lines with
      | cons line rest =>
          simp only [hdone, List.map_cons, List.cons_append] at hqueue
          simp only [Channel.takeLine, hdone, hqueue, Bool.false_eq_true, if_false]
          exact ⟨rest, rfl, hthere, by simp, by simp⟩
      | nil =>
          cases hended : channel.ended with
          | true =>
              simp only [hdone, hended, List.map_nil, List.nil_append, Bool.not_false,
                Bool.and_true, if_true] at hqueue
              simp only [Channel.takeLine, hdone, hqueue, Bool.false_eq_true, if_false]
              exact ⟨trivial, .inl hended, hthere, by simp, fun _ => ⟨rfl, .inl hended⟩⟩
          | false =>
              simp only [hended, List.map_nil, List.nil_append, Bool.false_and,
                Bool.false_eq_true, if_false] at hqueue
              cases hsender : channel.hasSender with
              | true =>
                  simp only [Channel.takeLine, hdone, hqueue, hsender, Bool.false_eq_true,
                    if_false, if_true]
                  simp [IsOver, hended, hsender]
              | false =>
                  simp only [Channel.takeLine, hdone, hqueue, hsender, Bool.false_eq_true,
                    if_false]
                  exact ⟨trivial, .inr hsender, hthere, by simp, fun _ => ⟨rfl, .inr rfl⟩⟩

end Channel

/-- What the hands at the far ends of two channels have done to them: whether the sender
is there, whether the end has been marked, and whether the receiver is there. -/
def Wiring.hands (wiring : Wiring) : Option (Bool × Bool) × Option Bool :=
  (wiring.input.map fun channel => (channel.hasSender, channel.ended),
    wiring.output.map Channel.hasReceiver)

theorem Wiring.receive_of_readable {wiring : Wiring} {input : Channel}
    (hinput : wiring.input = some input) (hthere : input.hasReceiver = true) :
    wiring.receive = ({ wiring with input := some input.takeLine.1 }, input.takeLine.2) := by
  simp [receive, hinput, hthere]

/-- Who has to wait has no line, and may still get one. -/
theorem Channel.Holds.of_not_ready {wiring : Wiring} {input : Channel} {lines : List Text}
    (h : input.Holds lines) (hinput : wiring.input = some input)
    (hready : wiring.isReady = false) : lines = [] ∧ ¬ input.IsOver := by
  have htake := h.takeLine
  rw [Wiring.isReady, Wiring.receive_of_readable hinput h.there, decide_eq_false_iff_not,
    not_not] at hready
  rw [hready] at htake
  exact ⟨htake.1, htake.2.1⟩

/-- The receiver of a channel, where there is one, gets what is sent to it. -/
theorem Wiring.transmit_of_output {wiring : Wiring} {output : Channel}
    (houtput : wiring.output = some output) (line : Text) :
    wiring.transmit line =
      if output.hasReceiver then
        ({ wiring with output := some { output with queue := output.queue ++ [.line line] } },
          true)
      else (wiring, false) := by
  rw [transmit, houtput]
  simp only [Channel.send]
  split
  · rfl
  · simp [← houtput]

/-- A body that is about to read its next line with a reader. -/
inductive Body.Asks (reader : Reader) : Body → Prop
  | reading : Asks reader (.reading reader)
  | receiving : Asks reader (.receiving reader)
  | waiting : Asks reader (.waiting reader)

/-- A body that is about to hand a line on. -/
inductive Body.Hands (line : Text) (next : Continuation) : Body → Prop
  | emitting : Hands line next (.emitting line next)
  | sending : Hands line next (.sending line next)

namespace Body

variable {body next : Body} {wiring after : Wiring} {world later : World}

/-- A body does nothing to the far ends of its channels. -/
theorem hands_of_goes (h : body.Goes wiring world next after later) :
    after.hands = wiring.hands := by
  have hreceive : wiring.receive.1.hands = wiring.hands := by
    rw [Worker.receive_eq]
    cases hinput : wiring.input with
    | none => simp [Wiring.hands, hinput]
    | some channel =>
        obtain ⟨hsender, hended, -⟩ := channel.ends_takeLine
        simp only [Wiring.hands, hinput, Option.map_some]
        split <;> simp [hsender, hended]
  have htransmit (line : Text) : (wiring.transmit line).1.hands = wiring.hands := by
    rw [Worker.transmit_eq]
    cases houtput : wiring.output with
    | none => simp [Wiring.hands, houtput]
    | some channel =>
        simp only [Wiring.hands, houtput, Option.map_some, Channel.send]
        split <;> rfl
  cases h with
  | take reader hreceived | finish reader hreceived | wait reader hreceived =>
      rw [hreceived] at hreceive
      exact hreceive
  | send line next htransmitted | refuse line next htransmitted =>
      have hsame := htransmit line
      rw [htransmitted] at hsame
      exact hsame
  | close =>
      simp only [Wiring.hands, Wiring.closeInput, Option.map_map]
      rfl
  | _ => rfl

/-- What a body does that is about to read its next line, when these lines wait for it: it
looks for the line or waits, or it takes the first of them, or it finds their end. -/
theorem Asks.step {reader : Reader} {input : Channel} {lines : List Text}
    (h : body.Asks reader) (hgoing : wiring.cancelled = false)
    (hinput : wiring.input = some input) (hheld : input.Holds lines)
    (hgoes : body.Goes wiring world next after later) :
    later = world ∧ ∃ left, after = { wiring with input := some left } ∧
      ((next.Asks reader ∧ left.Holds lines) ∨
        (∃ line rest, lines = line :: rest ∧ left.Holds rest ∧ next = handle line reader) ∨
        (lines = [] ∧ left.IsOver ∧ left.Holds [] ∧ next = conclude reader)) := by
  have hopen : wiring.isReadable = true := by simp [Wiring.isReadable, hinput, hheld.there]
  have hsame : wiring = { wiring with input := some input } := by rw [← hinput]
  have hreceive := Wiring.receive_of_readable hinput hheld.there
  have htake := hheld.takeLine
  cases h with
  | reading =>
      cases hgoes with
      | shut _ hclosed => simp [hopen] at hclosed
      | stopReading _ _ hfired => simp [hgoing] at hfired
      | look => exact ⟨rfl, input, hsame, .inl ⟨.receiving, hheld⟩⟩
  | waiting =>
      cases hgoes with
      | stopWaiting _ hfired => simp [hgoing] at hfired
      | wake => exact ⟨rfl, input, hsame, .inl ⟨.receiving, hheld⟩⟩
  | receiving =>
      cases hgoes with
      | take _ hreceived =>
          obtain ⟨rfl, htaken⟩ := Prod.mk.inj (hreceive.symm.trans hreceived)
          rw [htaken] at htake
          obtain ⟨rest, rfl, hrest⟩ := htake
          exact ⟨rfl, _, rfl, .inr (.inl ⟨_, rest, rfl, hrest, rfl⟩)⟩
      | finish _ hreceived =>
          obtain ⟨rfl, htaken⟩ := Prod.mk.inj (hreceive.symm.trans hreceived)
          rw [htaken] at htake
          obtain ⟨rfl, hover, hrest⟩ := htake
          have hends : input.takeLine.1.IsOver := by
            rwa [Channel.IsOver, (input.ends_takeLine).1, (input.ends_takeLine).2.1]
          exact ⟨rfl, _, rfl, .inr (.inr ⟨rfl, hends, hrest, rfl⟩)⟩
      | wait _ hreceived =>
          obtain ⟨rfl, htaken⟩ := Prod.mk.inj (hreceive.symm.trans hreceived)
          rw [htaken] at htake
          rw [htake.2.2]
          exact ⟨rfl, input, rfl, .inl ⟨.waiting, hheld⟩⟩

/-- What a body does that is about to hand a line on: it goes on handing it on, or the line
is sent, or there is nobody to take it. -/
theorem Hands.step {line : Text} {rest : Continuation} {output : Channel}
    (h : body.Hands line rest) (hgoing : wiring.cancelled = false)
    (houtput : wiring.output = some output)
    (hgoes : body.Goes wiring world next after later) :
    later = world ∧
      ((next.Hands line rest ∧ after = wiring) ∨
        (output.hasReceiver = true ∧ next = resume rest ∧
          after = { wiring with
            output := some { output with queue := output.queue ++ [.line line] } }) ∨
        (output.hasReceiver = false ∧ next = .ended .downstreamClosed ∧ after = wiring)) := by
  have htransmit := Wiring.transmit_of_output houtput line
  cases h with
  | emitting =>
      cases hgoes with
      | stopEmitting _ _ hfired => simp [hgoing] at hfired
      | emit => exact ⟨rfl, .inl ⟨.sending, rfl⟩⟩
  | sending =>
      cases hthere : output.hasReceiver with
      | true =>
          rw [hthere, if_pos rfl] at htransmit
          cases hgoes with
          | send _ _ hsent =>
              obtain ⟨rfl, -⟩ := Prod.mk.inj (htransmit.symm.trans hsent)
              exact ⟨rfl, .inr (.inl ⟨rfl, rfl, rfl⟩)⟩
          | refuse _ _ hrefused => simp [htransmit] at hrefused
      | false =>
          rw [hthere, if_neg Bool.false_ne_true] at htransmit
          cases hgoes with
          | send _ _ hsent => simp [htransmit] at hsent
          | refuse _ _ hrefused =>
              obtain ⟨rfl, -⟩ := Prod.mk.inj (htransmit.symm.trans hrefused)
              exact ⟨rfl, .inr (.inr ⟨rfl, rfl, rfl⟩)⟩

/-- A body cannot go on only when it has ended or waits for a line that is not there. -/
theorem rest_cases (h : body.step wiring world = none) :
    (∃ ending, body = .ended ending) ∨
      ∃ reader, body = .waiting reader ∧ wiring.isReady = false := by
  by_cases hended : ∃ ending, body = .ended ending
  · exact .inl hended
  have hworker : (Worker.running body).step wiring world = none := by
    cases body with
    | ended ending => exact absurd ⟨ending, rfl⟩ hended
    | _ => simp [Worker.step, h]
  rcases Worker.step_eq_none_iff.mp hworker with ⟨exit, hgone⟩ | ⟨⟨reader, hwaiting⟩, -, hready⟩
  · cases hgone
  · exact .inr ⟨reader, Worker.running.inj hwaiting, hready⟩

private theorem step_run (body : Body) (wiring : Wiring) (world : World) :
    (body.run wiring world).1.step (body.run wiring world).2.1 (body.run wiring world).2.2 =
      none := by
  fun_induction Body.run body wiring world with
  | case1 _ _ _ _ _ _ _ ih => exact ih
  | case2 _ _ _ hstep => exact hstep

/-- What every step keeps holds when a body has run as far as it can. -/
theorem run_induction {motive : Body → Wiring → World → Prop}
    (step : ∀ body next wiring after world later, motive body wiring world →
      body.Goes wiring world next after later → motive next after later)
    (start : motive body wiring world) :
    motive (body.run wiring world).1 (body.run wiring world).2.1 (body.run wiring world).2.2 := by
  fun_induction Body.run body wiring world with
  | case1 body wiring world next after later hstep ih =>
      exact ih (step body next wiring after world later start (goes_of_step hstep))
  | case2 => exact start

end Body

namespace Bench

variable {bench last : Bench}

theorem isFed_congr {first second : Bench} (h : first.wiring.hands = second.wiring.hands) :
    first.isFed = second.isFed ∧ first.isHeard = second.isHeard := by
  obtain ⟨hinput, houtput⟩ := Prod.mk.inj h
  constructor
  · have hany (bench : Bench) : bench.isFed =
        (bench.wiring.input.map fun channel => (channel.hasSender, channel.ended)).any
          fun flags => flags.1 && !flags.2 := by
      simp only [isFed, Option.any_map]
    rw [hany, hany, hinput]
  · have hany (bench : Bench) :
        bench.isHeard = (bench.wiring.output.map Channel.hasReceiver).any id := by
      simp only [isHeard, Option.any_map]
      rfl
    rw [hany, hany, houtput]

/-- What every step of a body keeps holds when it has been polled. -/
theorem poll_induction {motive : Bench → Prop}
    (step : ∀ bench next after later, motive bench →
      bench.body.Goes bench.wiring bench.world next after later →
      motive { bench with body := next, wiring := after, world := later })
    (start : motive bench) : motive bench.poll.1 := by
  unfold poll
  split
  · exact start
  · exact Body.run_induction
      (motive := fun body wiring world => motive { bench with body, wiring, world })
      (fun body next wiring after world later => step { bench with body, wiring, world } next after
        later) start

theorem hands_poll (bench : Bench) : bench.poll.1.wiring.hands = bench.wiring.hands :=
  poll_induction (motive := fun later => later.wiring.hands = bench.wiring.hands)
    (fun _ _ _ _ hsame hgoes => (Body.hands_of_goes hgoes).trans hsame) rfl

/-- A poll neither feeds nor takes lines. -/
theorem books_poll (bench : Bench) :
    bench.poll.1.fed = bench.fed ∧ bench.poll.1.taken = bench.taken := by
  unfold poll
  split <;> exact ⟨rfl, rfl⟩

/-- What a poll answers tells where it has left the body. -/
theorem answer_poll (bench : Bench) :
    bench.poll.2 =
      if bench.hasReturned then .gone
      else
        match bench.poll.1.body with
        | .ended ending => .returned ending
        | _ => .pending := by
  unfold poll
  split <;> rfl

/-- Only a poll lets the body run. -/
theorem body_of_act {handling : Handling} (hact : bench.act handling = some last) :
    last.body = bench.body ∨ last = bench.poll.1 := by
  cases handling with
  | poll => exact .inr (Option.some.inj hact).symm
  | feed line =>
      obtain ⟨⟨after, accepted⟩, hfeed, rfl⟩ := Option.map_eq_some_iff.mp hact
      obtain ⟨channel, -, -, hafter⟩ := feed_eq_some hfeed
      rw [(Prod.mk.inj hafter).1]
      exact .inl rfl
  | mark | hangUp =>
      obtain ⟨channel, -, -, rfl⟩ := atSender_eq_some hact
      exact .inl rfl
  | takeLine | takeFrame | takeAll | turnAway =>
      obtain ⟨channel, -, -, rfl⟩ := atReceiver_eq_some hact
      exact .inl rfl

private theorem poll_of_returned (h : bench.hasReturned = true) : bench.poll = (bench, .gone) := by
  rw [poll, if_pos h]

/-- After a poll the body cannot go on. -/
theorem step_poll (bench : Bench) :
    bench.poll.1.body.step bench.poll.1.wiring bench.poll.1.world = none := by
  by_cases hreturned : bench.hasReturned = true
  · rw [poll_of_returned hreturned]
    cases hbody : bench.body with
    | ended ending => rfl
    | _ => simp [hasReturned, hbody] at hreturned
  · rw [poll, if_neg hreturned]
    exact bench.body.step_run bench.wiring bench.world

theorem body_poll (bench : Bench) :
    (∃ reader, bench.poll.1.body = .waiting reader) ∨
      ∃ ending, bench.poll.1.body = .ended ending := by
  rcases Body.rest_cases bench.step_poll with hended | ⟨reader, hwaiting, -⟩
  · exact .inr hended
  · exact .inl ⟨reader, hwaiting⟩

/-- A body that has returned stays as it is, whatever is done on the bench. -/
theorem body_of_follow {handlings : List Handling} {ending : Ending}
    (hended : bench.body = .ended ending) (hfollow : bench.follow handlings = some last) :
    last.body = .ended ending := by
  refine follow_induction (motive := fun bench => bench.body = .ended ending)
    (fun handling before after hbefore hact => ?_) hended hfollow
  rcases body_of_act hact with hsame | rfl
  · rw [hsame, hbefore]
  · rw [poll_of_returned (by rw [hasReturned, hbefore]), hbefore]

/-- Between polls a body has not begun, or it waits for a line, or it has returned. -/
theorem body_cases {verb : Verb} {world : World} {handlings : List Handling}
    (hfollow : (start verb world).follow handlings = some bench) :
    bench.body = .fresh verb ∨ (∃ reader, bench.body = .waiting reader) ∨
      ∃ ending, bench.body = .ended ending := by
  refine follow_induction
    (motive := fun bench => bench.body = .fresh verb ∨ (∃ reader, bench.body = .waiting reader) ∨
      ∃ ending, bench.body = .ended ending)
    (fun handling before after hbefore hact => ?_) (.inl rfl) hfollow
  rcases body_of_act hact with hsame | rfl
  · rwa [hsame]
  · exact .inr before.body_poll

theorem body_of_returned {ending : Ending} (h : bench.poll.2 = .returned ending) :
    bench.poll.1.body = .ended ending := by
  rw [answer_poll] at h
  split at h
  · cases h
  · split at h
    · rename_i hbody
      obtain rfl := Polled.returned.inj h
      exact hbody
    · cases h

/-- A body returns only once. -/
theorem gone_of_follow {handlings : List Handling} (h : bench.poll.2 ≠ .pending)
    (hfollow : bench.poll.1.follow handlings = some last) : last.poll.2 = .gone := by
  have hended : ∃ ending, bench.poll.1.body = .ended ending := by
    rcases bench.body_poll with ⟨reader, hwaiting⟩ | hended
    · by_cases hreturned : bench.hasReturned = true
      · rw [poll_of_returned hreturned] at hwaiting
        rw [hasReturned, show bench.body = .waiting reader from hwaiting] at hreturned
        cases hreturned
      · rw [answer_poll, if_neg hreturned, hwaiting] at h
        exact absurd rfl h
    · exact hended
  obtain ⟨ending, hended⟩ := hended
  have hreturned : last.hasReturned = true := by
    rw [hasReturned, body_of_follow hended hfollow]
  rw [answer_poll, hreturned, if_pos rfl]

/-- Lines may come exactly as long as their channel is not over. -/
theorem isFed_iff {input : Channel} (hinput : bench.wiring.input = some input) :
    bench.isFed = true ↔ ¬ input.IsOver := by
  simp [isFed, hinput, Channel.IsOver, and_comm]

/-! Where more lines may come, any lines can be fed. -/

private theorem feed_of_isFed (h : bench.isFed = true) (line : Text) :
    ∃ next accepted, bench.feed line = some (next, accepted) ∧ next.fed = bench.fed ++ [line] ∧
      next.isFed = true := by
  obtain ⟨channel, hinput, hopen⟩ : ∃ channel, bench.wiring.input = some channel ∧
    (channel.hasSender && !channel.ended) = true := (Option.any_eq_true _ _).mp h
  have hsame : (channel.send line).1.hasSender = channel.hasSender ∧
      (channel.send line).1.ended = channel.ended := by
    unfold Channel.send
    split <;> exact ⟨rfl, rfl⟩
  have hfeed : bench.feed line =
      some ({ bench with
        wiring := { bench.wiring with input := some (channel.send line).1 }
        fed := bench.fed ++ [line] }, (channel.send line).2) := by
    simp only [feed, hinput, if_pos hopen]
  refine ⟨_, _, hfeed, rfl, ?_⟩
  rw [isFed, Option.any_some, hsame.1, hsame.2, hopen]

private theorem mark_of_isFed (h : bench.isFed = true) :
    ∃ next, bench.act .mark = some next ∧ next.fed = bench.fed ∧ next.isFed = false := by
  obtain ⟨channel, hinput, hopen⟩ : ∃ channel, bench.wiring.input = some channel ∧
    (channel.hasSender && !channel.ended) = true := (Option.any_eq_true _ _).mp h
  have hsender : channel.hasSender = true := (Bool.and_eq_true_iff.mp hopen).1
  have hmark : bench.act .mark =
      some { bench with wiring := { bench.wiring with input := some channel.finish.1 } } := by
    simp only [act, atSender, hinput, if_pos hsender]
  refine ⟨_, hmark, rfl, ?_⟩
  rw [Bool.eq_false_iff]
  exact fun hfed => (isFed_iff rfl).mp hfed channel.isOver_finish

theorem feed_all {verb : Verb} (h : verb.acceptsInput = true) (world : World)
    (lines : List Text) :
    ∃ bench, (start verb world).follow (lines.map .feed ++ [.mark]) = some bench ∧
      bench.fed = lines ∧ bench.isFed = false := by
  suffices hall : ∀ bench : Bench, bench.isFed = true →
      ∃ last, bench.follow (lines.map .feed ++ [.mark]) = some last ∧
        last.fed = bench.fed ++ lines ∧ last.isFed = false by
    have hopen : (start verb world).isFed = true := by simp [start, isFed, h]
    simpa [start] using hall _ hopen
  induction lines with
  | nil =>
      intro bench hopen
      obtain ⟨next, hact, hfed, hclosed⟩ := mark_of_isFed hopen
      exact ⟨next, by simp [follow, hact], by simp [hfed], hclosed⟩
  | cons line rest ih =>
      intro bench hopen
      obtain ⟨next, accepted, hfeed, hfed, hnext⟩ := feed_of_isFed hopen line
      obtain ⟨last, hfollow, hlast, hclosed⟩ := ih next hnext
      exact ⟨last, by simpa [follow, act, hfeed] using hfollow, by simp [hlast, hfed], hclosed⟩

end Bench

end LineShell
