import LineShell.Run

/-!
Pipelines in the background. Jobs are numbered as they start, and the registry
holds a job from its start until it has been pruned after its last worker
ended, killed, or waited for. A user names a job by its position in the
listing, which counts from one and leaves no gaps.
-/

namespace LineShell

/-- Whether a listed job is at work or was just killed. -/
inductive JobStatus where
  | running
  | killed
deriving DecidableEq, Repr

/-- A line of the job listing. -/
structure JobInfo where
  /-- The number of the job, which no other job ever has. -/
  id : Nat
  position : Nat
  command : Text
  status : JobStatus
deriving DecidableEq, Repr

/-- A pipeline that was started in the background. -/
structure Job where
  id : Nat
  run : Run
  /-- Whether the registry holds it. A job that has been let go may still have
  workers that are coming to their end. -/
  held : Bool := true
deriving DecidableEq, Repr

def Job.info (job : Job) (position : Nat) : JobInfo :=
  { id := job.id
    position
    command := job.run.command
    status := if job.run.cancelled then .killed else .running }

/-- All jobs that were ever started, in the order of their start. -/
structure Jobs where
  nextId : Nat := 1
  started : List Job := []
deriving DecidableEq, Repr

namespace Jobs

def held (jobs : Jobs) : List Job :=
  jobs.started.filter Job.held

/-- Takes a pipeline in that was just started, and gives it its number. -/
def register (jobs : Jobs) (run : Run) : Jobs × Nat :=
  ({ nextId := jobs.nextId + 1, started := jobs.started ++ [{ id := jobs.nextId, run }] },
   jobs.nextId)

def prune (jobs : Jobs) : Jobs :=
  { jobs with
    started := jobs.started.map fun job =>
      if job.run.isFinished then { job with held := false } else job }

/-- The lines of some jobs in a listing that begins at a position. -/
def listFrom : Nat → List Job → List JobInfo
  | _, [] => []
  | position, job :: rest => job.info position :: listFrom (position + 1) rest

def list (jobs : Jobs) : Jobs × List JobInfo :=
  let jobs := jobs.prune
  (jobs, listFrom 1 jobs.held)

def count (jobs : Jobs) : Jobs × Nat :=
  let jobs := jobs.prune
  (jobs, jobs.held.length)

/-- Whether no job is live. -/
def isEmpty (jobs : Jobs) : Jobs × Bool :=
  let (jobs, count) := jobs.count
  (jobs, count = 0)

def release (jobs : Jobs) (id : Nat) : Jobs :=
  { jobs with
    started := jobs.started.map fun job =>
      if job.id = id then { job with run := job.run.cancel, held := false } else job }

/-- Kills the job at a position of the listing. It leaves the registry at once;
its workers stop at their next read or write. -/
def kill (jobs : Jobs) (position : Nat) : Jobs × Except ShellError JobInfo :=
  let jobs := jobs.prune
  if position = 0 then (jobs, .error (.noSuchJob position))
  else
    match jobs.held[position - 1]? with
    | none => (jobs, .error (.noSuchJob position))
    | some job =>
      (jobs.release job.id, .ok ({ job with run := job.run.cancel }.info position))

/-- Runs some jobs to their end, one after the other. -/
def settleEach : List Job → World → List Job × World
  | [], world => ([], world)
  | job :: rest, world =>
    let (run, world) := job.run.settle world
    let (rest, world) := settleEach rest world
    ({ job with run } :: rest, world)

/-- Runs every job to its end, in the order of their start. -/
def settle (jobs : Jobs) (world : World) : Jobs × World :=
  let (started, world) := settleEach jobs.started world
  ({ jobs with started }, world)

/-- Waits for every job. The answer has the numbers and the results of those
that the registry held, and it holds none of them any more. -/
def waitAll (jobs : Jobs) (world : World) : Jobs × World × List (Nat × RunResult) :=
  let (jobs, world) := jobs.settle world
  ({ jobs with started := jobs.started.map fun job => { job with held := false } },
   world,
   jobs.held.map fun job => (job.id, job.run.result))

end Jobs

end LineShell
