import LineShell.Session
import LineShell.Text.Backspace

/-!
The program: what it does for its arguments and its standard input. It answers
with an exit code and with what it wrote, and leaves the files as it left them.
-/

namespace LineShell

namespace Program

def version : String := "0.1.0"

def help : String :=
  "pipesh v" ++ version ++ "

Usage:
  pipesh                       Interactive REPL
  pipesh -c <command>          Execute command and exit

Options:
  -c <command>                 Execute command string and exit
  -h, --help                   Show this help
  -V, --version                Show version

Commands:
  cat <file>                   Emit the lines of a file
  cd <dir | . | ..>            Change directory
  grep <text>                  Keep lines containing text
  wc                           Count lines, words and characters
  uniq                         Drop repeated lines
  head, tail                   First or last 10 lines
  pwd, ls                      Working directory and its entries
  > <file>                     Write lines to a file
  repl_jobs                    List background jobs
  kill <n>                     Stop background job n
  exit                         Leave the shell

  a | b | c                    Pipeline
  cmd &                        Run in background

Configuration:
  ~/.config/pipesh/config.toml (prompt, banner, history, history_file)
  RUST_LOG controls log output on stderr.

"

/-- What the arguments of the program ask for. -/
inductive Task where
  /-- A session over the lines of the standard input. -/
  | session
  | help
  | version
  | command (text : Text)
  | missingCommand
  | unknown (option : Text)
deriving DecidableEq, Repr

/-- Reads the arguments. Only the first is looked at, and the second where the
first asks for one. -/
def task : List Text → Task
  | [] => .session
  | option :: rest =>
    if option = "--help".toList ∨ option = "-h".toList then .help
    else if option = "--version".toList ∨ option = "-V".toList then .version
    else if option = "-c".toList then
      match rest with
      | command :: _ => .command command
      | [] => .missingCommand
    else .unknown option

/-- What a run of the program leaves behind. -/
structure Report where
  code : Nat
  output : Text
  errors : Text
  files : FileTree

def shellIn (directory : Text) (files : FileTree) : Shell :=
  { name := "repl".toList, world := { files, directory } }

/-- What a user is told about settings that cannot be had. -/
def configFailure (error : ConfigError) : Text :=
  "Error: ".toList ++ error.message ++ "\n\nCaused by:\n    ".toList ++
    (match error with
      | .unreadable _ => "the file cannot be read as text".toList
      | .malformed _ => "the file does not hold valid settings".toList) ++ ['\n']

/-- Runs one command and waits for what it started. The code tells whether it was
refused. -/
def runCommand (directory : Text) (files : FileTree) (command : Text) : Report :=
  let (shell, text, flow) := Session.takeLine (shellIn directory files) command
  let (shell, more) := Session.settle shell
  { code := match flow with
      | .failed _ => 1
      | _ => 0
    output := text ++ more
    errors := []
    files := shell.world.files }

/-- The lines of a text as they are taken from the standard input: each stands
for what its backspaces leave of it. -/
def inputLines (input : Text) : List Text :=
  (Text.lines input).map Text.applyBackspaces

def runSession (around : Surroundings) (directory : Text) (files : FileTree) (input : Text) :
    Report :=
  match Config.load files around with
  | .error error => { code := 1, output := [], errors := configFailure error, files }
  | .ok config =>
    let (shell, output) :=
      Session.run (shellIn directory files) config around (inputLines input)
    { code := 0, output, errors := [], files := shell.world.files }

def run (around : Surroundings) (directory : Text) (files : FileTree) (arguments : List Text)
    (input : Text) : Report :=
  match task arguments with
  | .session => runSession around directory files input
  | .help => { code := 0, output := help.toList, errors := [], files }
  | .version =>
    { code := 0, output := ("pipesh " ++ version ++ "\n").toList, errors := [], files }
  | .command command => runCommand directory files command
  | .missingCommand =>
    { code := 1, output := [], errors := "Error: -c requires a command argument\n".toList, files }
  | .unknown option =>
    { code := 1
      output := []
      errors := "Unknown option: ".toList ++ option ++
        "\nRun 'pipesh --help' for usage.\n".toList
      files }

end Program

end LineShell
