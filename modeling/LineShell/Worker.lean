import LineShell.Filter
import LineShell.Wiring
import LineShell.World
import LineShell.WriteBuffer

/-!
Stages at work. A worker is a machine that takes small steps: one look at the
token, one take from a queue, one line sent, one read of a source, one write to
a sink, or one step of its end. The workers of a pipeline share nothing but
their channels, the token and the world, so any order of their steps is an
order in which the pipeline may run.
-/

namespace LineShell

/-- Where a worker that reads lines puts them. -/
inductive Reader where
  | filter (filter : Filter)
  | console
  /-- At the end of a file, behind the bytes that have not reached it yet. -/
  | file (place : Place) (held : Bytes)
  | nowhere
deriving DecidableEq, Repr

/-- How the body of a stage ends. -/
inductive Ending where
  | completed
  | cancelled
  /-- It noticed that the next stage takes no more lines. -/
  | downstreamClosed
deriving DecidableEq, Repr

/-- What follows when a line has been sent. -/
inductive Continuation where
  | read (filter : Filter)
  | flush (lines : List Text)
deriving DecidableEq, Repr

/-- What the body of a stage does next. Reading and emitting are the looks at the
token that come before receiving and sending. -/
inductive Body where
  | fresh (verb : Verb)
  | reading (reader : Reader)
  | receiving (reader : Reader)
  /-- Has found its queue empty. When there is something in it, or when the token
  fires, it looks at the token again. -/
  | waiting (reader : Reader)
  | writing (line : Text) (reader : Reader)
  /-- Writes the bytes that are held back to their file, and nothing more. -/
  | storing (place : Place) (held : Bytes)
  | emitting (line : Text) (next : Continuation)
  | sending (line : Text) (next : Continuation)
  | closing
  | ended (ending : Ending)
deriving DecidableEq, Repr

namespace Body

def flushing : List Text → Body
  | [] => .ended .completed
  | line :: rest => .emitting line (.flush rest)

def readOn (filter : Filter) : Body :=
  if filter.isFull then .closing else .reading (.filter filter)

def resume : Continuation → Body
  | .read filter => readOn filter
  | .flush lines => flushing lines

def handle (line : Text) : Reader → Body
  | .filter filter =>
    match filter.take line with
    | (next, some passed) => .emitting passed (.read next)
    | (next, none) => readOn next
  | reader => .writing line reader

def conclude : Reader → Body
  | .filter filter => if filter.closesInput then .closing else flushing filter.flush
  | .file place held => .storing place held
  | .console | .nowhere => .ended .completed

/-- Begins the work of a verb, with the first thing that it does in the world:
a file or a directory is read as a whole, a redirect opens its file, and the
working directory is asked for or changed. -/
def start (world : World) : Verb → Body × World
  | .cat path => (flushing (world.fileLines path), world)
  | .ls => (flushing world.listing, world)
  | .pwd => (flushing [world.directory], world)
  | .cd change => (.ended .completed, world.changeDirectory change)
  | .exit => (.ended .completed, world)
  | .grep query => (readOn (.matching query), world)
  | .uniq => (readOn (.distinct []), world)
  | .wc => (readOn (.counting {}), world)
  | .head => (readOn (.first keptLines), world)
  | .tail => (readOn (.last []), world)
  | .print => (.reading .console, world)
  | .redirect path =>
    match world.files.openFile? path with
    | some (files, place) => (.reading (.file place []), { world with files })
    | none => (.reading .nowhere, world)

/-- Writes a line to the sink that a reader stands for. A file takes what its
buffer does not hold back. -/
def writeLine (world : World) (line : Text) : Reader → Reader × World
  | .console => (.console, world.print line)
  | .file place held =>
    let (written, held) := WriteBuffer.putLine held line
    (.file place held, world.append place written)
  | reader => (reader, world)

/-- One step, or none where the body has ended or has to wait for a line. -/
def step (body : Body) (wiring : Wiring) (world : World) : Option (Body × Wiring × World) :=
  match body with
  | .fresh verb =>
    let (body, world) := start world verb
    some (body, wiring, world)
  | .reading reader =>
    if !wiring.isReadable then some (conclude reader, wiring, world)
    else if wiring.cancelled then some (.ended .cancelled, wiring, world)
    else some (.receiving reader, wiring, world)
  | .receiving reader =>
    match wiring.receive with
    | (wiring, .line line) => some (handle line reader, wiring, world)
    | (wiring, .finished) => some (conclude reader, wiring, world)
    | (wiring, .waiting) => some (.waiting reader, wiring, world)
  | .waiting reader =>
    if wiring.cancelled then some (.ended .cancelled, wiring, world)
    else if wiring.isReady then some (.receiving reader, wiring, world)
    else none
  | .writing line reader =>
    let (reader, world) := writeLine world line reader
    some (.reading reader, wiring, world)
  | .storing place held => some (.ended .completed, wiring, world.append place held)
  | .emitting line next =>
    if wiring.cancelled then some (.ended .cancelled, wiring, world)
    else some (.sending line next, wiring, world)
  | .sending line next =>
    match wiring.transmit line with
    | (wiring, true) => some (resume next, wiring, world)
    | (wiring, false) => some (.ended .downstreamClosed, wiring, world)
  | .closing => some (.ended .completed, wiring.closeInput, world)
  | .ended _ => none

end Body

/-- How a worker ends. -/
inductive Exit where
  /-- Its body came to an end of its own, and the end mark was sent. -/
  | finished
  | cancelled
deriving DecidableEq, Repr

/-- A stage at work, from its first step to its last. -/
inductive Worker where
  /-- The body is at work, or has ended and the end mark has not been sent. -/
  | running (body : Body)
  | leaving (exit : Exit)
  | gone (exit : Exit)
deriving DecidableEq, Repr

namespace Worker

/-- One step, or none where the worker has ended or has to wait for a line. -/
def step (worker : Worker) (wiring : Wiring) (world : World) :
    Option (Worker × Wiring × World) :=
  match worker with
  | .running (.ended .cancelled) => some (.leaving .cancelled, wiring, world)
  | .running (.ended _) => some (.leaving .finished, wiring.finish.1, world)
  | .running body =>
    (body.step wiring world).map fun (body, wiring, world) => (.running body, wiring, world)
  | .leaving exit => some (.gone exit, wiring.closeInput.closeOutput, world)
  | .gone _ => none

def exit? : Worker → Option Exit
  | .gone exit => some exit
  | _ => none

end Worker

end LineShell
