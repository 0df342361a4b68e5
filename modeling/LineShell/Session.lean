import LineShell.Config
import LineShell.Dialogue
import LineShell.History

/-!
A session at the command line: it greets, prompts, reads lines until one asks
for the end or there are no more, remembers them, and waits for the pipelines
in the background. What it writes is text; what it does to files is done to the
shell's world.
-/

namespace LineShell

/-- A session. -/
structure Session where
  shell : Shell
  config : Config
  history : History := {}
  /-- The file that they are remembered in, if they are. -/
  historyPath : Option Text := none

namespace Session

def welcome : Text := "Welcome to the Unix-ish command line.".toList

def goodbye : Text := "Thank you for using the Unix-ish command line. Goodbye!".toList

/-- A greeting on a line of its own, if greetings are wanted. -/
def greeting (config : Config) (text : Text) : Text :=
  if config.banner then text ++ ['\n'] else []

/-- Begins a session: the lines of earlier sessions are read. -/
def start (shell : Shell) (config : Config) (around : Surroundings) : Session × Text :=
  let historyPath := config.historyPath? around
  let history :=
    match historyPath.bind shell.world.files.read? with
    | some content => History.load content
    | none => {}
  ({ shell, config, history, historyPath }, greeting config welcome)

/-- Takes a line through a shell. The text is what the line printed, followed by
what the user is told. -/
def takeLine (shell : Shell) (line : Text) : Shell × Text × Flow :=
  let (shell, flow) := Dialogue.processLine shell line
  let (shell, printed) := shell.takeConsole
  let told :=
    match flow with
    | .proceed (some text) | .failed text => text ++ ['\n']
    | .proceed none | .exit => []
  (shell, Text.unlines printed ++ told, flow)

/-- Lets the pipelines in the background come to their end. The text is what they
print. -/
def settle (shell : Shell) : Shell × Text :=
  let (shell, printed) := (Dialogue.shutdown shell).takeConsole
  (shell, Text.unlines printed)

/-- Takes one line. The session remembers it unless it is blank. -/
def feed (session : Session) (line : Text) : Session × Text × Flow :=
  let history := if Text.allBlank line then session.history else session.history.add line
  let (shell, text, flow) := takeLine session.shell line
  ({ session with shell, history }, text, flow)

/-- Takes lines until one asks for the end. The prompt is written before every
line, and once more where there is none. -/
def feedAll (session : Session) : List Text → Session × Text
  | [] => (session, session.config.prompt)
  | line :: rest =>
    match session.feed line with
    | (session, text, .exit) => (session, session.config.prompt ++ text)
    | (session, text, _) =>
      let (session, more) := feedAll session rest
      (session, session.config.prompt ++ text ++ more)

/-- The files with the lines of the session remembered. Where nothing is new the
file stays as it is. -/
def remember (session : Session) (files : FileTree) : FileTree :=
  match session.historyPath with
  | none => files
  | some path =>
    let files :=
      match Path.parent? path with
      | some directory => files.makeDirectories directory
      | none => files
    if session.history.unsaved = 0 then files else files.write path session.history.render

/-- Ends a session: the lines are remembered, and the pipelines in the background
come to their end. -/
def close (session : Session) : Session × Text :=
  let world := session.shell.world
  let shell := { session.shell with world := { world with files := session.remember world.files } }
  let (shell, text) := settle shell
  ({ session with shell }, text ++ greeting session.config goodbye)

def run (shell : Shell) (config : Config) (around : Surroundings) (lines : List Text) :
    Shell × Text :=
  let (session, opening) := start shell config around
  let (session, text) := session.feedAll lines
  let (session, closing) := session.close
  (session.shell, opening ++ text ++ closing)

end Session

end LineShell
