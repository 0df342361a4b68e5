import LineShell.Program

/-!
The program on a machine. Before a line is taken, what it may look at is read
from the disk into a file tree, and what it removes is removed there, since only the disk
can tell what it lets go; afterwards the changes to that tree are written back. All that
is decided in between is decided by the library.
-/

namespace LineShell.Main

/-- What an action gives, or nothing where it fails. -/
def attempt {α : Type} (action : IO α) : IO (Option α) := do
  try
    return some (← action)
  catch _ =>
    return none

def systemPath (place : Place) : String :=
  String.ofList (Path.render true place)

/-- Reads what is at a path into a tree. A path that leads through a link is put
in as a link to where it leads. Of a file that is not wanted only the name is
put in. -/
def capture (wanted : Bool) (tree : FileTree) (path : Text) : IO FileTree := do
  let place := Path.names path
  match ← attempt (IO.FS.realPath (systemPath place)) with
  | none => return tree
  | some real =>
    let realPlace := Path.names real.toString.toList
    let node ←
      match (← attempt real.metadata).map fun metadata => metadata.type with
      | some IO.FS.FileType.dir => pure (some Node.directory)
      | some IO.FS.FileType.file =>
        if wanted then
          pure ((← attempt (IO.FS.readBinFile real)).map fun bytes => Node.file bytes.toList)
        else pure (some (Node.file []))
      | _ => pure none
    match node with
    | none => return tree
    | some node =>
      let tree := if realPlace = [] then tree else tree.plant realPlace node
      if realPlace = place then return tree
      else return tree.plant place (.link real.toString.toList)

def captureNamed (tree : FileTree) (path : Text) : IO FileTree := do
  let tree ←
    match Path.parent? path with
    | some directory => capture true tree directory
    | none => pure tree
  capture true tree path

def captureListing (tree : FileTree) (directory : Text) : IO FileTree := do
  let tree ← captureNamed tree directory
  match ← attempt (IO.FS.realPath (systemPath (Path.names directory))) with
  | none => return tree
  | some real =>
    match ← attempt real.readDir with
    | none => return tree
    | some entries =>
      entries.foldlM (fun tree entry =>
        capture false tree (Path.join real.toString.toList entry.fileName.toList)) tree

/-- The paths that the jobs of a shell may still read or write. -/
def jobPaths (shell : Shell) : List Text :=
  shell.jobs.started.flatMap fun job =>
    job.run.posts.filterMap fun post =>
      match post.worker with
      | .running (.fresh (.cat path)) => some path
      | .running (.fresh (.redirect path)) => some path
      | _ => none

/-- A tree with a directory and some paths read from the disk. Relative paths
start from the given place. -/
def snapshot (start : Place) (directory : Text) (paths : List Text) : IO FileTree := do
  let tree ← captureListing { FileTree.empty with start } directory
  paths.foldlM
    (fun tree path => captureNamed tree (Path.resolve (Path.render true start) path)) tree

def restore (before after : FileTree) : IO Unit := do
  for (place, node) in before.below [] do
    let removed :=
      match node, after.node? place with
      | .directory, _ => false
      | .link _, some (.file _) => true
      | _, none => true
      | _, _ => false
    if removed then
      let _ ← attempt (IO.FS.removeFile (systemPath place))
  for (place, node) in after.below [] do
    if before.node? place ≠ some node then
      match node with
      | .directory =>
        let _ ← attempt (IO.FS.createDirAll (systemPath place))
      | .file bytes =>
        let _ ← attempt (IO.FS.writeBinFile (systemPath place) (ByteArray.mk bytes.toArray))
      | .link _ | .device => pure ()

/-- A tree in which what is at a place stays. Whether it can be written to is asked of the
disk. -/
def guarding (tree : FileTree) (place : Place) : IO FileTree := do
  let opened ← attempt (IO.FS.Handle.mk (systemPath place) IO.FS.Mode.append)
  let access := if opened.isSome then Access.write else Access.read
  return { tree with access := fun other => if other = place then access else tree.access other }

/-- Removes from the disk what the making of a command removes. The answer is the tree in
which what could not be removed stays, and what is on the disk then. Whatever stays may
let more of the command be made, so all is tried as often as paths are named. -/
def clear (directory command : Text) (tree : FileTree) : IO (FileTree × FileTree) := do
  let mut files := tree
  let mut disk := tree
  for _ in CommandLine.namedPaths directory command do
    let cleared := (CommandLine.build directory files command).1
    for (place, _) in disk.below [] do
      if cleared.node? place = none then
        match ← attempt (IO.FS.removeFile (systemPath place)) with
        | some _ => disk := disk.erase place
        | none => files ← guarding files place
  return (files, disk)

/-- The command that a line asks to be made into a pipeline. -/
def commandOf (line : Text) : Option Text :=
  match Shell.request line with
  | .pipeline command _ => some command
  | _ => none

/-- Does something with the files of a shell. What is at the given paths, in the
working directory and at the paths of the jobs is read before, and written
after; so is what the command names, if one is to be made. -/
def withFiles {α : Type} (shell : Shell) (paths : List Text) (command? : Option Text)
    (act : Shell → α × FileTree) : IO α := do
  let directory := shell.world.directory
  let named := command?.elim [] (CommandLine.namedPaths directory)
  let before ← snapshot shell.world.files.start directory (paths ++ named ++ jobPaths shell)
  let (files, disk) ←
    match command? with
    | some command => clear directory command before
    | none => pure (before, before)
  let (result, after) := act { shell with world := { shell.world with files } }
  restore disk after
  return result

def write (text : Text) : IO Unit := do
  let output ← IO.getStdout
  output.putStr (String.ofList text)
  output.flush

def readLine : IO (Option Text) := do
  let input ← IO.getStdin
  match ← attempt input.getLine with
  | some text => return (Program.inputLines text.toList).head?
  | none => return none

/-- Lets the pipelines in the background come to their end. -/
def settle (shell : Shell) : IO Shell := do
  let (shell, text) ← withFiles shell [] none fun shell =>
    let (shell, text) := Session.settle shell
    ((shell, text), shell.world.files)
  write text
  return shell

/-- Reads lines until one asks for the end. While a line is awaited, the
pipelines in the background come to their end. -/
partial def loop (session : Session) : IO Session := do
  write session.config.prompt
  let line? ← readLine
  let session := { session with shell := ← settle session.shell }
  match line? with
  | none => return session
  | some line =>
    let (session, text, flow) ←
      withFiles session.shell [] (commandOf line) fun shell =>
        let (session, text, flow) := { session with shell }.feed line
        ((session, text, flow), session.shell.world.files)
    write text
    if flow = .exit then return session else loop session

def surroundings : IO Surroundings := do
  let get (name : String) : IO (Option Text) := do return (← IO.getEnv name).map String.toList
  return {
    home := ← get "HOME"
    accountHome := "/".toList
    configHome := ← get "XDG_CONFIG_HOME"
    dataHome := ← get "XDG_DATA_HOME" }

def runSession (around : Surroundings) (shell : Shell) : IO UInt32 := do
  let files ← snapshot shell.world.files.start shell.world.directory [around.configPath]
  match Config.load files around with
  | .error error =>
    (← IO.getStderr).putStr (String.ofList (Program.configFailure error))
    return 1
  | .ok config =>
    let (session, opening) ←
      withFiles shell (config.historyPath? around).toList none fun shell =>
        let (session, opening) := Session.start shell config around
        ((session, opening), session.shell.world.files)
    write opening
    let session ← loop session
    let text ← withFiles session.shell session.historyPath.toList none fun shell =>
      let (session, text) := { session with shell }.close
      (text, session.shell.world.files)
    write text
    return 0

def run (arguments : List Text) : IO UInt32 := do
  let directory := (← IO.currentDir).toString.toList
  let shell := Program.shellIn directory { FileTree.empty with start := Path.names directory }
  let around ← surroundings
  match Program.task arguments with
  | .session => runSession around shell
  | task =>
    let command? :=
      match task with
      | .command command => commandOf command
      | _ => none
    let report ← withFiles shell [] command? fun shell =>
      let report := Program.run around directory shell.world.files arguments []
      (report, report.files)
    write report.output
    (← IO.getStderr).putStr (String.ofList report.errors)
    return UInt32.ofNat report.code

end LineShell.Main

def main (arguments : List String) : IO UInt32 :=
  LineShell.Main.run (arguments.map String.toList)
