import LineShell.Run

/-!
What one step of a worker can do. Its effect on the channel that it writes to
and on the channel that it reads from is a function of the worker alone, and so
is the frame that it hands on. Nothing else of its surroundings but the world
is changed, so all that is said about the channels of a pipeline is derived
from here.
-/

namespace LineShell

namespace Worker

/-- Whether a worker may still hand something on. -/
def isRunning : Worker → Bool
  | .running _ => true
  | .leaving _ | .gone _ => false

/-- What the next step does to the channel that the worker writes to. -/
def outputAfter : Worker → Channel → Channel
  | .running (.sending line _), channel => (channel.send line).1
  | .running (.ended .cancelled), channel => channel
  | .running (.ended _), channel => channel.finish.1
  | .leaving _, channel => channel.dropSender
  | _, channel => channel

/-- What the next step does to the channel that the worker reads from. -/
def inputAfter : Worker → Channel → Channel
  | .running (.receiving _), channel =>
    if channel.hasReceiver then channel.takeLine.1 else channel
  | .running .closing, channel | .leaving _, channel => channel.dropReceiver
  | _, channel => channel

/-- The frame that the next step hands on: a line that is sent or written, or the
end mark. A line that nobody takes is not handed on. -/
def frameSent (wiring : Wiring) : Worker → Option Frame
  | .running (.writing line _) => some (.line line)
  | .running (.sending line _) =>
    if (wiring.transmit line).2 then some (.line line) else none
  | .running (.ended .cancelled) => none
  | .running (.ended _) => some .finish
  | _ => none

theorem receive_eq (wiring : Wiring) :
    wiring.receive.1 =
      { wiring with
        input := wiring.input.map fun channel =>
          if channel.hasReceiver then channel.takeLine.1 else channel } := by
  rcases wiring with ⟨_ | channel, output, cancelled⟩
  · rfl
  · simp only [Wiring.receive, Option.map_some]
    split <;> rfl

theorem transmit_eq (wiring : Wiring) (line : Text) :
    (wiring.transmit line).1 =
      { wiring with output := wiring.output.map fun channel => (channel.send line).1 } := by
  rcases wiring with ⟨input, _ | channel, cancelled⟩ <;> rfl

theorem finish_eq (wiring : Wiring) :
    wiring.finish.1 =
      { wiring with output := wiring.output.map fun channel => channel.finish.1 } := by
  rcases wiring with ⟨input, _ | channel, cancelled⟩ <;> rfl

/-- What a worker sees when its next step has been taken. -/
def rewire (wiring : Wiring) (worker : Worker) : Wiring :=
  { wiring with
    input := wiring.input.map worker.inputAfter
    output := wiring.output.map worker.outputAfter }

private theorem rewire_eq_self {wiring : Wiring} {worker : Worker}
    (hinput : worker.inputAfter = fun channel => channel)
    (houtput : worker.outputAfter = fun channel => channel) : worker.rewire wiring = wiring := by
  simp [rewire, hinput, houtput]

/-- A step moves the channels of the worker as the worker says, and leaves the token
alone. -/
theorem wiring_of_step {worker next : Worker} {wiring after : Wiring} {world later : World}
    (h : worker.step wiring world = some (next, after, later)) :
    after = worker.rewire wiring := by
  have houtput : wiring.output.map id = wiring.output := Option.map_id'
  have hinput : wiring.input.map id = wiring.input := Option.map_id'
  cases goes_of_step h with
  | work hbody =>
      cases hbody with
      | take reader hreceived | finish reader hreceived | wait reader hreceived =>
          have hreceive := receive_eq wiring
          rw [hreceived] at hreceive
          rw [rewire, show (running (.receiving reader)).outputAfter = id from rfl, houtput]
          exact hreceive
      | send line next htransmitted | refuse line next htransmitted =>
          have hsend := transmit_eq wiring line
          rw [htransmitted] at hsend
          rw [rewire, show (running (.sending line next)).inputAfter = id from rfl, hinput]
          exact hsend
      | close =>
          rw [rewire, show (running .closing).outputAfter = id from rfl, houtput]
          rfl
      | _ => exact (rewire_eq_self rfl rfl).symm
  | giveUp => exact (rewire_eq_self rfl rfl).symm
  | @mark ending hown =>
      rw [finish_eq, rewire, show (running (.ended ending)).inputAfter = id from rfl, hinput]
      cases ending with
      | cancelled => cases hown
      | completed => rfl
      | downstreamClosed => rfl
  | leave exit => rfl

/-- A worker never takes a receiver back, and puts nothing into a channel that it
reads from. -/
theorem inputAfter_spec (worker : Worker) (channel : Channel) :
    (worker.inputAfter channel).hasSender = channel.hasSender ∧
      (worker.inputAfter channel).queue <:+ channel.queue := by
  unfold inputAfter
  split
  · split
    · unfold Channel.takeLine
      split
      · exact ⟨rfl, List.suffix_rfl⟩
      · split
        · rename_i hqueue
          exact ⟨rfl, hqueue ▸ List.suffix_cons _ _⟩
        · rename_i hqueue
          exact ⟨rfl, hqueue ▸ List.suffix_cons _ _⟩
        · split <;> exact ⟨rfl, List.suffix_rfl⟩
    · exact ⟨rfl, List.suffix_rfl⟩
  · exact ⟨rfl, List.nil_suffix⟩
  · exact ⟨rfl, List.nil_suffix⟩
  · exact ⟨rfl, List.suffix_rfl⟩

/-- Only the sender ends a channel. -/
theorem ended_inputAfter (worker : Worker) (channel : Channel) :
    (worker.inputAfter channel).ended = channel.ended := by
  unfold inputAfter
  split
  · split
    · unfold Channel.takeLine
      repeat' split
      all_goals rfl
    · rfl
  · rfl
  · rfl
  · rfl

/-- A worker leaves the receiver of a channel that it writes to alone. -/
theorem outputAfter_spec (worker : Worker) (channel : Channel) :
    (worker.outputAfter channel).hasReceiver = channel.hasReceiver ∧
      (worker.outputAfter channel).done = channel.done := by
  unfold outputAfter
  split
  · unfold Channel.send
    split <;> exact ⟨rfl, rfl⟩
  · exact ⟨rfl, rfl⟩
  · unfold Channel.finish
    split
    · exact ⟨rfl, rfl⟩
    · split <;> exact ⟨rfl, rfl⟩
  · exact ⟨rfl, rfl⟩
  · exact ⟨rfl, rfl⟩

end Worker

end LineShell
