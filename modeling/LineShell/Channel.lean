import LineShell.Text

/-!
The channel between two stages: a queue of frames without a bound, with one
sender and one receiver. The end of the lines is a frame of its own, so no line
can be taken for it, and an empty queue is not an end while the sender is
there.
-/

namespace LineShell

/-- What travels through a channel. -/
inductive Frame where
  | line (text : Text)
  | finish
deriving DecidableEq, Repr

/-- A channel with its two ends. -/
structure Channel where
  /-- The frames that were sent and not yet taken, the oldest first. -/
  queue : List Frame := []
  hasSender : Bool := true
  hasReceiver : Bool := true
  ended : Bool := false
  /-- Whether the receiver has been told that there are no more lines. -/
  done : Bool := false
deriving DecidableEq, Repr

/-- What a receiver gets when it asks for a line. -/
inductive Reception where
  | line (text : Text)
  | finished
  | waiting
deriving DecidableEq, Repr

/-- What a receiver gets when it asks for a frame. -/
inductive FrameReception where
  | frame (frame : Frame)
  | closed
  | waiting
deriving DecidableEq, Repr

namespace Channel

/-- Sends a line. This fails exactly when the receiver is gone. -/
def send (channel : Channel) (text : Text) : Channel × Bool :=
  if channel.hasReceiver then
    ({ channel with queue := channel.queue ++ [.line text] }, true)
  else (channel, false)

/-- Sends the end mark, and tells whether this was the first time. A receiver
that is gone needs no mark. -/
def finish (channel : Channel) : Channel × Bool :=
  if channel.ended then (channel, false)
  else if channel.hasReceiver then
    ({ channel with queue := channel.queue ++ [.finish], ended := true }, true)
  else ({ channel with ended := true }, true)

/-- The channel without its sender. What was sent before stays in the queue. -/
def dropSender (channel : Channel) : Channel :=
  { channel with hasSender := false }

/-- The channel without its receiver, and so without the frames that nobody can
take any more. -/
def dropReceiver (channel : Channel) : Channel :=
  { channel with hasReceiver := false, queue := [] }

/-- Takes the next frame. Whether the receiver has been told of an end plays no
part. -/
def takeFrame (channel : Channel) : Channel × FrameReception :=
  match channel.queue with
  | frame :: rest => ({ channel with queue := rest }, .frame frame)
  | [] => (channel, if channel.hasSender then .waiting else .closed)

/-- Takes the next line. The end mark counts as the end of the lines, and so does
an empty queue without a sender; from then on there are no lines, whatever is
in the queue. -/
def takeLine (channel : Channel) : Channel × Reception :=
  if channel.done then (channel, .finished)
  else
    match channel.queue with
    | .line text :: rest => ({ channel with queue := rest }, .line text)
    | .finish :: rest => ({ channel with queue := rest, done := true }, .finished)
    | [] =>
      if channel.hasSender then (channel, .waiting)
      else ({ channel with done := true }, .finished)

def takeAll (channel : Channel) : Channel × List Frame :=
  ({ channel with queue := [] }, channel.queue)

end Channel

end LineShell
