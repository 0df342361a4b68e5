import LineShell.Jobs
import LineShell.Text.Number

/-!
A shell takes one line at a time. A line is blank, a word for the shell itself,
or a pipeline, which runs at once or, with `&` at its end, in the background. A
line is checked as a whole before anything runs, so a line that is refused has
run nothing.
-/

namespace LineShell

/-- What a line did. -/
inductive Outcome where
  | empty
  | completed (result : RunResult)
  | background (id : Nat) (command : Text)
  | jobs (listing : List JobInfo)
  | killed (job : JobInfo)
  | exit
deriving DecidableEq, Repr

/-- A shell: its name, the world that its pipelines work in, and its jobs. -/
structure Shell where
  name : Text
  /-- The files, the working directory and the console. -/
  world : World
  jobs : Jobs := {}

namespace Shell

def exitWord : Text := "exit".toList

def jobsWord : Text := "repl_jobs".toList

def killWord : Text := "kill".toList

/-- A line without the mark that puts it in the background, and whether it had
that mark. One mark counts; the line has no blanks at its ends. -/
def splitBackground (line : Text) : Text × Bool :=
  if line.getLast? = some '&' then (Text.trim line.dropLast, true) else (line, false)

/-- What a line asks for. -/
inductive Request where
  | nothing
  | exit
  | jobs
  | kill (index : Text)
  | pipeline (command : Text) (background : Bool)
  /-- Something that there is not: a background mark without a command. -/
  | lone (line : Text)
deriving DecidableEq, Repr

def request (line : Text) : Request :=
  let line := Text.trim line
  if line = [] then .nothing
  else if line = exitWord then .exit
  else
    let (command, background) := splitBackground line
    if command = [] then .lone line
    else if command = jobsWord then .jobs
    else if CommandLine.hasWord command killWord then
      .kill (Text.trim (command.drop killWord.length))
    else .pipeline command background

/-- Kills the job that an index names. An index that is no number is refused
before the jobs are looked at. -/
def kill (shell : Shell) (index : Text) : Shell × Except ShellError Outcome :=
  match Text.count? index with
  | none => (shell, .error (.invalidJobIndex index))
  | some position =>
    let (jobs, killed) := shell.jobs.kill position
    ({ shell with jobs }, killed.map .killed)

def runForeground (shell : Shell) (pipeline : Pipeline) : Shell × Outcome :=
  let (run, world) := (Run.start pipeline).settle shell.world
  ({ shell with world },
   if run.result.exitRequested then .exit else .completed run.result)

/-- Starts a pipeline in the background. None of its workers has taken a step
yet. -/
def runBackground (shell : Shell) (pipeline : Pipeline) : Shell × Outcome :=
  let (jobs, id) := shell.jobs.register (Run.start pipeline)
  ({ shell with jobs }, .background id pipeline.command)

def runPipeline (shell : Shell) (command : Text) (background : Bool) :
    Shell × Except ShellError Outcome :=
  let (files, made) := CommandLine.build shell.world.directory shell.world.files command
  let shell := { shell with world := { shell.world with files } }
  match made with
  | .error error => (shell, .error error)
  | .ok pipeline =>
    let (shell, outcome) :=
      if background then shell.runBackground pipeline else shell.runForeground pipeline
    (shell, .ok outcome)

def execute (shell : Shell) (line : Text) : Shell × Except ShellError Outcome :=
  match request line with
  | .nothing => (shell, .ok .empty)
  | .exit => (shell, .ok .exit)
  | .jobs =>
    let (jobs, listing) := shell.jobs.list
    ({ shell with jobs }, .ok (.jobs listing))
  | .kill index => shell.kill index
  | .pipeline command background => shell.runPipeline command background
  | .lone line => (shell, .error (.commandNotFound line))

def settle (shell : Shell) : Shell :=
  let (jobs, world) := shell.jobs.settle shell.world
  { shell with jobs, world }

/-- Waits for every job, and answers with the results of those that the
registry held. -/
def waitBackground (shell : Shell) : Shell × List (Nat × RunResult) :=
  let (jobs, world, results) := shell.jobs.waitAll shell.world
  ({ shell with jobs, world }, results)

/-- The shell with an empty console, and the lines that were on it. -/
def takeConsole (shell : Shell) : Shell × List Text :=
  ({ shell with world := { shell.world with console := [] } }, shell.world.console)

end Shell

end LineShell
