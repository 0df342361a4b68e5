import LineShell.Proofs.Bench
import LineShell.Proofs.Exchanges

/-!
All that can happen to the wiring of a stage: at the far end of its input, in the stage, to
its token, and at the far end of its output, in any order. What the stage reads are the
first of the lines that were fed, and what it writes is what the far end of its output can
take. From the moment the token fires nothing is read and nothing is written any more.
-/

namespace LineShell

/-- What can be done to a wiring. -/
inductive WiringUse where
  /-- Sends a line into the input. -/
  | feed (text : Text)
  /-- Marks the end of the lines that are fed. -/
  | mark
  /-- Drops the sender of the input. -/
  | hangUp
  | nextLine
  | emit (text : Text)
  | closeInput
  | finish
  /-- Lets the token fire. -/
  | cancel
  | takeLine
  | takeFrame
  /-- Drops the receiver of the output. -/
  | turnAway
deriving DecidableEq, Repr

/-- What is answered. -/
inductive WiringAnswer where
  /-- An answer at the far end of a channel. -/
  | far (answer : ChannelAnswer)
  | read (outcome : ReadOutcome)
  | wrote (outcome : WriteOutcome)
  | told (first : Bool)
  | nothing
deriving DecidableEq, Repr

/-- A use of a wiring in a history, with the wiring before it and after it. -/
structure Dealing where
  before : Wiring
  use : WiringUse
  answer : WiringAnswer
  after : Wiring

def Reception.outcome : Reception → ReadOutcome
  | .line text => .line text
  | .finished => .finished
  | .waiting => .waiting

namespace Wiring

/-- A wiring that nothing has happened to, with an input and an output or without. -/
def fresh (reads writes : Bool) : Wiring :=
  { input := if reads then some {} else none
    output := if writes then some {} else none }

/-- What the far end of the input does. -/
def atInput (wiring : Wiring) (use : ChannelUse) : Wiring × WiringAnswer :=
  match wiring.input with
  | some input =>
    ({ wiring with input := some (input.respond use).1 }, .far (input.respond use).2)
  | none => (wiring, .nothing)

/-- What the far end of the output does. -/
def atOutput (wiring : Wiring) (use : ChannelUse) : Wiring × WiringAnswer :=
  match wiring.output with
  | some output =>
    ({ wiring with output := some (output.respond use).1 }, .far (output.respond use).2)
  | none => (wiring, .nothing)

/-- Whether a use is possible. At a far end it is where the channel is there and admits it,
and the stage sends no line behind its end mark. -/
def admits (wiring : Wiring) : WiringUse → Bool
  | .feed text => wiring.input.any fun input => input.admits (.send text)
  | .mark => wiring.input.any fun input => input.admits .finish
  | .hangUp => wiring.input.any fun input => input.admits .dropSender
  | .takeLine => wiring.output.any fun output => output.admits .takeLine
  | .takeFrame => wiring.output.any fun output => output.admits .takeFrame
  | .turnAway => wiring.output.any fun output => output.admits .dropReceiver
  | .emit _ => wiring.cancelled || !wiring.output.any Channel.ended
  | .nextLine | .closeInput | .finish | .cancel => true

/-- What a use makes of a wiring and what it answers. -/
def respond (wiring : Wiring) : WiringUse → Wiring × WiringAnswer
  | .feed text => wiring.atInput (.send text)
  | .mark => wiring.atInput .finish
  | .hangUp => wiring.atInput .dropSender
  | .nextLine => (wiring.nextLine.1, .read wiring.nextLine.2)
  | .emit text => ((wiring.emit text).1, .wrote (wiring.emit text).2)
  | .closeInput => (wiring.closeInput, .nothing)
  | .finish => (wiring.finish.1, .told wiring.finish.2)
  | .cancel => ({ wiring with cancelled := true }, .nothing)
  | .takeLine => wiring.atOutput .takeLine
  | .takeFrame => wiring.atOutput .takeFrame
  | .turnAway => wiring.atOutput .dropReceiver

/-- What happens when a wiring is used. -/
def deal (wiring : Wiring) (use : WiringUse) : Dealing :=
  { before := wiring
    use
    answer := (wiring.respond use).2
    after := (wiring.respond use).1 }

/-- The histories of a wiring. -/
inductive History (reads writes : Bool) : List Dealing → Wiring → Prop
  | start : History reads writes [] (fresh reads writes)
  | dealing {dealings : List Dealing} {wiring : Wiring}
      (before : History reads writes dealings wiring) (use : WiringUse)
      (possible : wiring.admits use = true) :
      History reads writes (dealings ++ [wiring.deal use]) (wiring.deal use).after

end Wiring

namespace Dealing

/-- The line that was fed and accepted. -/
def fed (dealing : Dealing) : List Text :=
  match dealing.use, dealing.answer with
  | .feed text, .far (.told true) => [text]
  | _, _ => []

/-- The line that the stage was given. -/
def read (dealing : Dealing) : List Text :=
  match dealing.answer with
  | .read (.line text) => [text]
  | _ => []

/-- The line that the stage has written, where it has an output. -/
def emitted (dealing : Dealing) : List Text :=
  match dealing.use, dealing.answer with
  | .emit text, .wrote .sent => if dealing.before.output.isSome then [text] else []
  | _, _ => []

/-- Whether the stage has marked the end of its lines, and there was a receiver to see the
mark. -/
def marks (dealing : Dealing) : Bool :=
  dealing.use = .finish && dealing.answer = .told true &&
    dealing.before.output.any Channel.hasReceiver

/-- The frames in the output of a wiring. -/
def outgoing (wiring : Wiring) : List Frame :=
  (wiring.output.map Channel.queue).getD []

/-- The frame that has left the front of the output, and its receiver has taken it. -/
def taken (dealing : Dealing) : List Frame :=
  match dealing.use with
  | .takeLine | .takeFrame =>
    (outgoing dealing.before).take
      ((outgoing dealing.before).length - (outgoing dealing.after).length)
  | _ => []

/-- What the stage has handed to the receiver of its output: the lines that it has written,
and the end mark behind them. -/
def offered (dealings : List Dealing) : List Frame :=
  (dealings.flatMap emitted).map .line ++ if dealings.any marks then [.finish] else []

/-- What has been handed to the receiver of the output and not been taken. -/
def inOutput (dealings : List Dealing) : List Frame :=
  (offered dealings).drop (dealings.flatMap taken).length

/-- What a stage that still reads is given next: the first line that was fed and not read,
or else the end where no more can come. -/
def nextRead (dealings : List Dealing) : ReadOutcome :=
  match (dealings.flatMap fed).drop (dealings.flatMap read).length with
  | text :: _ => .line text
  | [] =>
    if .mark ∈ dealings.map use ∨ .hangUp ∈ dealings.map use then .finished else .waiting

/-- What a dealing answers, told by those before it. -/
structure Lawful (reads writes : Bool) (earlier : List Dealing) (now : Dealing) : Prop where
  /-- A line that is fed is refused exactly when the stage has closed its input. -/
  feed : ∀ text, now.use = .feed text →
    now.answer = .far (.told (.closeInput ∉ earlier.map use))
  nextLine : now.use = .nextLine →
    if reads = false ∨ .closeInput ∈ earlier.map use then
      now.answer = .read .finished ∧ now.after = now.before
    else if .cancel ∈ earlier.map use then
      now.answer = .read .cancelled ∧ now.after = now.before
    else now.answer = .read (nextRead earlier)
  emit : ∀ text, now.use = .emit text →
    if .cancel ∈ earlier.map use then
      now.answer = .wrote .cancelled ∧ now.after = now.before
    else if .turnAway ∈ earlier.map use then
      now.answer = .wrote .downstreamClosed ∧ now.after = now.before
    else now.answer = .wrote .sent
  /-- The end is marked once, and only where there is an output. -/
  finish : now.use = .finish → now.answer = .told (writes && .finish ∉ earlier.map use)
  takeLine : now.use = .takeLine →
    if .far (.line .finished) ∈ earlier.map answer then
      now.answer = .far (.line .finished) ∧ now.taken = []
    else
      now.answer = .far (.line (match inOutput earlier with
        | .line text :: _ => .line text
        | .finish :: _ => .finished
        | [] => .waiting)) ∧
      now.taken = (inOutput earlier).take 1
  takeFrame : now.use = .takeFrame →
    now.answer = .far (.frame (match inOutput earlier with
      | frame :: _ => .frame frame
      | [] => .waiting)) ∧
    now.taken = (inOutput earlier).take 1

end Dealing

namespace Wiring

variable {wiring : Wiring} {use : WiringUse} {input output : Channel} {channelUse : ChannelUse}

/-! What each use comes to. -/

theorem deal_of_input (hinput : wiring.input = some input)
    (hfar : wiring.respond use = wiring.atInput channelUse) :
    wiring.deal use =
      { before := wiring
        use
        answer := .far (input.respond channelUse).2
        after := { wiring with input := some (input.respond channelUse).1 } } := by
  rw [deal, hfar, atInput, hinput]

theorem deal_of_output (houtput : wiring.output = some output)
    (hfar : wiring.respond use = wiring.atOutput channelUse) :
    wiring.deal use =
      { before := wiring
        use
        answer := .far (output.respond channelUse).2
        after := { wiring with output := some (output.respond channelUse).1 } } := by
  rw [deal, hfar, atOutput, houtput]

theorem nextLine_of_unreadable (h : wiring.isReadable = false) :
    wiring.nextLine = (wiring, .finished) := by
  cases hinput : wiring.input with
  | none => simp [nextLine, receive, h, hinput]
  | some input =>
      have hgone : input.hasReceiver = false := by simpa [isReadable, hinput] using h
      simp [nextLine, receive, h, hinput, hgone]

theorem nextLine_of_cancelled (h : wiring.isReadable = true) (hfired : wiring.cancelled = true) :
    wiring.nextLine = (wiring, .cancelled) := by
  simp [nextLine, h, hfired]

theorem nextLine_of_readable (hinput : wiring.input = some input)
    (hthere : input.hasReceiver = true) (hgoing : wiring.cancelled = false) :
    wiring.nextLine =
      ({ wiring with input := some input.takeLine.1 }, input.takeLine.2.outcome) := by
  simp only [nextLine, hgoing, Bool.and_false, Bool.false_eq_true, if_false,
    receive_of_readable hinput hthere]
  cases input.takeLine.2 <;> rfl

theorem emit_of_cancelled (hfired : wiring.cancelled = true) (text : Text) :
    wiring.emit text = (wiring, .cancelled) := by
  simp [emit, hfired]

theorem emit_of_none (houtput : wiring.output = none) (hgoing : wiring.cancelled = false)
    (text : Text) : wiring.emit text = (wiring, .sent) := by
  simp [emit, hgoing, transmit, houtput]

theorem emit_of_output (houtput : wiring.output = some output) (hgoing : wiring.cancelled = false)
    (text : Text) :
    wiring.emit text =
      ({ wiring with output := some (output.send text).1 },
        if output.hasReceiver then .sent else .downstreamClosed) := by
  cases hthere : output.hasReceiver <;>
    simp [emit, hgoing, transmit, houtput, Channel.send, hthere]

theorem finish_of_output (houtput : wiring.output = some output) :
    wiring.finish = ({ wiring with output := some output.finish.1 }, output.finish.2) := by
  simp [finish, houtput]

theorem finish_of_none (houtput : wiring.output = none) : wiring.finish = (wiring, false) := by
  simp [finish, houtput]

/-! What a use leaves alone. -/

private theorem nextLine_fst (wiring : Wiring) :
    wiring.nextLine.1 =
      if wiring.isReadable && wiring.cancelled then wiring else wiring.receive.1 := by
  unfold nextLine
  split
  · rfl
  · split <;> simp_all

private theorem emit_fst (wiring : Wiring) (text : Text) :
    (wiring.emit text).1 = if wiring.cancelled then wiring else (wiring.transmit text).1 := by
  unfold emit
  split
  · rfl
  · split <;> simp_all

theorem output_nextLine (wiring : Wiring) : wiring.nextLine.1.output = wiring.output := by
  rw [nextLine_fst, Worker.receive_eq]
  split <;> rfl

theorem input_emit (wiring : Wiring) (text : Text) :
    (wiring.emit text).1.input = wiring.input := by
  rw [emit_fst, Worker.transmit_eq]
  split <;> rfl

theorem input_finish (wiring : Wiring) : wiring.finish.1.input = wiring.input := by
  rw [Worker.finish_eq]

/-- A use neither makes nor removes a channel, and only one use lets the token fire. -/
theorem kept_deal (wiring : Wiring) (use : WiringUse) :
    (wiring.deal use).after.input.isSome = wiring.input.isSome ∧
      (wiring.deal use).after.output.isSome = wiring.output.isSome ∧
      (wiring.deal use).after.cancelled = (wiring.cancelled || .cancel = use) := by
  cases use with
  | nextLine =>
      simp only [deal, respond, nextLine_fst, Worker.receive_eq]
      split <;> simp
  | emit text =>
      simp only [deal, respond, emit_fst, Worker.transmit_eq]
      split <;> simp
  | closeInput => simp [deal, respond, closeInput]
  | finish => simp [deal, respond, Worker.finish_eq]
  | cancel => simp [deal, respond]
  | feed text | mark | hangUp =>
      cases hinput : wiring.input <;> simp [deal, respond, atInput, hinput]
  | takeLine | takeFrame | turnAway =>
      cases houtput : wiring.output <;> simp [deal, respond, atOutput, houtput]

end Wiring

end LineShell
