import LineShell.CommandLine
import LineShell.Worker.Progress

/-!
A pipeline at work: its workers in a row, each with the channel that it reads
from, and one token for all of them. One step of the pipeline is one step of
any of its workers. Run to its end, the workers take their turns from the first
to the last, which is one of the orders that the steps allow.
-/

namespace LineShell

/-- A worker of a pipeline and the channel that it reads from. The first worker
has none. -/
structure Post where
  worker : Worker
  inbox : Option Channel
deriving DecidableEq, Repr

namespace Post

def inboxOf : List Post → Option Channel
  | [] => none
  | post :: _ => post.inbox

/-- The posts with another channel into the first of them. -/
def withInbox (channel : Option Channel) : List Post → List Post
  | [] => []
  | post :: rest => { post with inbox := channel } :: rest

/-- What a worker sees that is followed by some posts. -/
def wiring (cancelled : Bool) (post : Post) (rest : List Post) : Wiring :=
  { input := post.inbox, output := inboxOf rest, cancelled }

/-- The posts when the worker at the front has left its channels in some
state. -/
def rebuild (worker : Worker) (wiring : Wiring) (rest : List Post) : List Post :=
  { worker, inbox := wiring.input } :: withInbox wiring.output rest

/-- One step of the worker at a position, if it can take one. -/
def stepAt (cancelled : Bool) : Nat → List Post → World → Option (List Post × World)
  | _, [], _ => none
  | 0, post :: rest, world =>
    (post.worker.step (post.wiring cancelled rest) world).map
      fun (worker, wiring, world) => (rebuild worker wiring rest, world)
  | position + 1, post :: rest, world =>
    (stepAt cancelled position rest world).map fun (rest, world) => (post :: rest, world)

/-- Runs the workers in turn, each until it has ended or has to wait. -/
def runFrom (cancelled : Bool) (post : Post) (rest : List Post) (world : World) :
    List Post × World :=
  let (worker, wiring, world) := post.worker.run (post.wiring cancelled rest) world
  let done : Post := { worker, inbox := wiring.input }
  match rest with
  | [] => ([done], world)
  | next :: rest =>
    let (posts, world) := runFrom cancelled { next with inbox := wiring.output } rest world
    (done :: posts, world)

def runAll (cancelled : Bool) : List Post → World → List Post × World
  | [], world => ([], world)
  | post :: rest, world => runFrom cancelled post rest world

/-- The posts of some stages. A stage has a channel to read from where it has a
predecessor. -/
def ofStages (stages : List Stage) : List Post :=
  stages.map fun stage =>
    { worker := .running (.fresh stage.verb)
      inbox := if stage.hasInput then some {} else none }

end Post

/-- How the workers of a pipeline have ended. -/
structure RunResult where
  stages : Nat
  finished : Nat
  cancelled : Nat
  lost : Nat
  /-- Whether the pipeline asked for the end of the session. -/
  exitRequested : Bool
deriving DecidableEq, Repr

def RunResult.ok (result : RunResult) : Bool :=
  result.finished = result.stages

/-- A pipeline at work. -/
structure Run where
  command : Text
  posts : List Post
  cancelled : Bool := false
  exitRequested : Bool := false
deriving DecidableEq, Repr

namespace Run

/-- A pipeline before the first step of any of its workers. -/
def start (pipeline : Pipeline) : Run :=
  { command := pipeline.command
    posts := Post.ofStages pipeline.stages
    exitRequested := pipeline.requestsExit }

def cancel (run : Run) : Run :=
  { run with cancelled := true }

def isFinished (run : Run) : Bool :=
  run.posts.getLast?.all fun post => post.worker.exit?.isSome

/-- One step of the worker at a position, if it can take one. -/
def stepAt (run : Run) (position : Nat) (world : World) : Option (Run × World) :=
  (Post.stepAt run.cancelled position run.posts world).map
    fun (posts, world) => ({ run with posts }, world)

def settle (run : Run) (world : World) : Run × World :=
  let (posts, world) := Post.runAll run.cancelled run.posts world
  ({ run with posts }, world)

def result (run : Run) : RunResult :=
  let exits := run.posts.map fun post => post.worker.exit?
  { stages := exits.length
    finished := exits.count (some .finished)
    cancelled := exits.count (some .cancelled)
    lost := exits.count none
    exitRequested := run.exitRequested }

end Run

end LineShell
