import LineShell.Channel

/-!
What a running stage sees of the channels around it: the one that it reads
from, the one that it writes to, and whether its pipeline has been cancelled. A
stage may lack either channel.
-/

namespace LineShell

/-- The two channels of a stage and the state of its pipeline's token. -/
structure Wiring where
  input : Option Channel
  output : Option Channel
  cancelled : Bool := false
deriving DecidableEq, Repr

/-- How a read ends. -/
inductive ReadOutcome where
  | line (text : Text)
  | finished
  | waiting
  | cancelled
deriving DecidableEq, Repr

/-- How a write ends. -/
inductive WriteOutcome where
  /-- The line is on its way, or there is no output to send it to. -/
  | sent
  | cancelled
  | downstreamClosed
deriving DecidableEq, Repr

namespace Wiring

/-- Whether there is an input that has not been closed. -/
def isReadable (wiring : Wiring) : Bool :=
  wiring.input.any Channel.hasReceiver

/-- Takes the next line, without a look at the token. A stage without an open
input is at the end of its lines from the start. -/
def receive (wiring : Wiring) : Wiring × Reception :=
  match wiring.input with
  | some channel =>
    if channel.hasReceiver then
      let (channel, reception) := channel.takeLine
      ({ wiring with input := some channel }, reception)
    else (wiring, .finished)
  | none => (wiring, .finished)

/-- Whether a read need not wait: there is a frame, or there will be none. -/
def isReady (wiring : Wiring) : Bool :=
  wiring.receive.2 ≠ .waiting

/-- Sends a line, without a look at the token. Where there is no output the line
is dropped, and that is no failure. -/
def transmit (wiring : Wiring) (text : Text) : Wiring × Bool :=
  match wiring.output with
  | some channel =>
    let (channel, accepted) := channel.send text
    ({ wiring with output := some channel }, accepted)
  | none => (wiring, true)

/-- Reads a line. The token is looked at first, unless there is no open input;
once it has fired nothing is taken any more. -/
def nextLine (wiring : Wiring) : Wiring × ReadOutcome :=
  if wiring.isReadable && wiring.cancelled then (wiring, .cancelled)
  else
    match wiring.receive with
    | (wiring, .line text) => (wiring, .line text)
    | (wiring, .finished) => (wiring, .finished)
    | (wiring, .waiting) => (wiring, .waiting)

/-- Writes a line. The token is looked at first; once it has fired nothing is
sent any more. -/
def emit (wiring : Wiring) (text : Text) : Wiring × WriteOutcome :=
  if wiring.cancelled then (wiring, .cancelled)
  else
    match wiring.transmit text with
    | (wiring, true) => (wiring, .sent)
    | (wiring, false) => (wiring, .downstreamClosed)

/-- Gives the input up, so that the stage before notices that nobody reads. -/
def closeInput (wiring : Wiring) : Wiring :=
  { wiring with input := wiring.input.map Channel.dropReceiver }

def closeOutput (wiring : Wiring) : Wiring :=
  { wiring with output := wiring.output.map Channel.dropSender }

/-- Sends the end mark. The answer is true the first time, where there is an
output. -/
def finish (wiring : Wiring) : Wiring × Bool :=
  match wiring.output with
  | some channel =>
    let (channel, first) := channel.finish
    ({ wiring with output := some channel }, first)
  | none => (wiring, false)

end Wiring

end LineShell
