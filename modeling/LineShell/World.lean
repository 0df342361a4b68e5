import LineShell.FileTree
import LineShell.Stage
import LineShell.Text.Lines

/-!
Everything outside a pipeline that its stages can see or change.
-/

namespace LineShell

/-- The files, the working directory, and the lines on the console. -/
structure World where
  files : FileTree
  /-- The working directory, as it was written or resolved. -/
  directory : Text
  /-- The lines that have been printed, the oldest first. -/
  console : List Text := []

namespace World

def print (world : World) (line : Text) : World :=
  { world with console := world.console ++ [line] }

/-- The world after a change of directory. Where the working directory has none
above it, going up leads nowhere. -/
def changeDirectory (world : World) : DirectoryChange → World
  | .stay => world
  | .up =>
    match Path.parent? world.directory with
    | some above => { world with directory := above }
    | none => world
  | .to path => { world with directory := path }

/-- The world with more bytes at the end of an open file. -/
def append (world : World) (place : Place) (bytes : Bytes) : World :=
  { world with files := world.files.append place bytes }

/-- The lines of the file that a path leads to. A file that cannot be read has
none. -/
def fileLines (world : World) (path : Text) : List Text :=
  match world.files.read? path with
  | some content => Text.lines (Text.decode content)
  | none => []

/-- The names in the working directory. One that cannot be read has none. -/
def listing (world : World) : List Text :=
  (world.files.list? world.directory).getD []

end World

end LineShell
