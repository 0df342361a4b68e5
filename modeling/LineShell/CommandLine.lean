import LineShell.FileTree
import LineShell.Stage

/-!
From a line of text to a linked pipeline. The only marks are `|` and `>`; there
is no quoting. A redirect that comes after the last `|` ends the pipeline, and
otherwise its lines are printed. Every check is made here, before anything
runs. The one thing that making a pipeline does to the file tree is that each
redirect, once made, removes the regular file that its path leads to. Where it is not
allowed to, the file stays and the line is made all the same.
-/

namespace LineShell

/-- A pipeline whose stages are linked in a row. -/
structure Pipeline where
  /-- The line that it was made from, without the blanks at its ends. -/
  command : Text
  stages : List Stage
deriving DecidableEq, Repr

/-- Whether a pipeline asks for the end of the session. -/
def Pipeline.requestsExit (pipeline : Pipeline) : Bool :=
  pipeline.stages.any fun stage => stage.verb = .exit

namespace CommandLine

/-- The argument of a command: all that follows its first space, without the
blanks at its ends. There has to be something. -/
def argument (command : Text) : Except ShellError Text :=
  match Text.cutFirst ' ' command with
  | some (_, rest) =>
    if Text.allBlank rest then .error (.requiresParameter command)
    else .ok (Text.trim rest)
  | none => .error (.requiresParameter command)

/-- Whether a command is a word alone, or the word with a space after it. -/
def hasWord (command word : Text) : Bool :=
  command = word || (word ++ [' ']).isPrefixOf command

/-- The verb of a `cat` command, whose path has to lead to a regular file. -/
def makeCat (directory : Text) (tree : FileTree) (command : Text) :
    Except ShellError Verb := do
  let path := Path.resolve directory (← argument command)
  if tree.isFile path then .ok (.cat path) else .error (.fileNotFound command)

/-- The verb of a `cd` command. The directory itself and the one above are
taken as they are; any other path has to lead to a directory. -/
def makeCd (directory : Text) (tree : FileTree) (command : Text) :
    Except ShellError Verb := do
  let target ← argument command
  if target = Path.here then .ok (.cd .stay)
  else if target = Path.above then .ok (.cd .up)
  else
    let path := Path.resolve directory target
    if tree.isDirectory path then .ok (.cd (.to path))
    else .error (.directoryNotFound command)

/-- The verb of a `grep` command. The query is the whole argument. -/
def makeGrep (command : Text) : Except ShellError Verb := do
  .ok (.grep (← argument command))

/-- The verb of a redirect. Its path may lead anywhere or nowhere. -/
def makeRedirect (directory command : Text) : Except ShellError Verb := do
  .ok (.redirect (Path.resolve directory (← argument command)))

/-- The file tree once a verb has been made: a redirect removes the regular file
that its path leads to, so that it will write to a fresh one. A file that cannot be
removed will be written to at its end. -/
def clearFor (tree : FileTree) : Verb → FileTree
  | .redirect path => if tree.isFile path then tree.remove path else tree
  | _ => tree

/-- The verb of a command that has no blanks at its ends. -/
def makeVerb (directory : Text) (tree : FileTree) (command : Text) :
    Except ShellError Verb :=
  if command = "pwd".toList then .ok .pwd
  else if command = "ls".toList then .ok .ls
  else if command = "wc".toList then .ok .wc
  else if command = "uniq".toList then .ok .uniq
  else if command = "head".toList then .ok .head
  else if command = "tail".toList then .ok .tail
  else if command = "exit".toList then .ok .exit
  else if hasWord command "cd".toList then makeCd directory tree command
  else if hasWord command "cat".toList then makeCat directory tree command
  else if hasWord command "grep".toList then makeGrep command
  else if hasWord command ">".toList then makeRedirect directory command
  else .error (.commandNotFound command)

def makeStage (directory : Text) (tree : FileTree) (piece : Text) :
    Except ShellError Stage := do
  let command := Text.trim piece
  .ok { command, verb := ← makeVerb directory tree command }

/-- The stages of the pieces of a line, made from left to right up to the first
that cannot be made. Each sees the tree as the ones before it left it. -/
def makeStages (directory : Text) :
    FileTree → List Text → FileTree × Except ShellError (List Stage)
  | tree, [] => (tree, .ok [])
  | tree, piece :: rest =>
    match makeStage directory tree piece with
    | .error error => (tree, .error error)
    | .ok stage =>
      let (tree, stages) := makeStages directory (clearFor tree stage.verb) rest
      (tree, stages.map (stage :: ·))

/-- The text of the stages of a line, and the text of the redirect that ends the
line where the last `>` comes after the last `|`. -/
def splitEnding (line : Text) : Text × Option Text :=
  match Text.cutLast '>' line with
  | some (before, redirect) =>
    if '|' ∈ redirect then (line, none) else (before, some redirect)
  | none => (line, none)

/-- The stage that ends a line: its redirect, or else a print stage. -/
def makeEnding (directory : Text) : Option Text → Except ShellError Stage
  | some redirect => do
    let command := Text.trim redirect
    .ok { command, verb := ← makeRedirect directory command }
  | none => .ok { command := "print".toList, verb := .print }

/-- The pieces of a segment between two `|`. A redirect in it is a piece of its
own, and so is the text before it, unless that is blank. -/
def piecesOfSegment (segment : Text) : List Text :=
  match Text.cutFirst '>' segment with
  | some (before, redirect) =>
    if Text.allBlank before then [redirect] else [before, redirect]
  | none => [segment]

/-- The segments of a text between its `|`, without the empty ones at the
end. -/
def segments (text : Text) : List Text :=
  ((text.split '|').reverse.dropWhile List.isEmpty).reverse

/-- The pieces of a text, each of which makes one stage. -/
def pieces (text : Text) : List Text :=
  (segments text).flatMap piecesOfSegment

/-- The stages of a line with the one that ends it. Lines that nobody writes are
not printed. -/
def withEnding (stages : List Stage) (ending : Stage) : List Stage :=
  match stages.getLast? with
  | some last =>
    if ending.verb = .print ∧ last.verb.isSolitary then stages else stages ++ [ending]
  | none => stages ++ [ending]

/-- Links the stages of a line, the first of which may not need a
predecessor. -/
def linkStages (first : Text) (stages : List Stage) : Except ShellError (List Stage) :=
  match stages with
  | [] => .ok []
  | stage :: _ =>
    if stage.verb.requiresInput then .error (.requiresInput (Text.trim first))
    else Stage.chain stages

/-- Makes the pipeline of a line in a working directory, and says what this left
of the file tree, whether the line was refused or not. The redirect at the end
is made first, and no check is made before an earlier one has passed. -/
def build (directory : Text) (tree : FileTree) (line : Text) :
    FileTree × Except ShellError Pipeline :=
  let (text, redirect) := splitEnding line
  match makeEnding directory redirect with
  | .error error => (tree, .error error)
  | .ok ending =>
    let tree := clearFor tree ending.verb
    if Text.allBlank text then (tree, .error (.requiresInput (Text.trim line)))
    else
      match pieces text with
      | [] => (tree, .error (.commandNotFound (Text.trim line)))
      | first :: rest =>
        match makeStages directory tree (first :: rest) with
        | (tree, .error error) => (tree, .error error)
        | (tree, .ok stages) =>
          match linkStages first (withEnding stages ending) with
          | .error error => (tree, .error error)
          | .ok stages => (tree, .ok { command := Text.trim line, stages })

/-- Every path that a line may name in a working directory, in any of its
pieces. No other file is looked at or changed when the line is made and run,
apart from the working directory itself. -/
def namedPaths (directory line : Text) : List Text :=
  let (text, redirect) := splitEnding line
  (redirect.toList ++ pieces text).filterMap fun piece =>
    match argument (Text.trim piece) with
    | .ok path => some (Path.resolve directory path)
    | .error _ => none

end CommandLine

end LineShell
