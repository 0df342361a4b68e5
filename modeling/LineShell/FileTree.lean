import Std.Data.ExtTreeMap
import LineShell.Path
import LineShell.Text.Utf8

/-!
A file tree as a value: directories, files with their bytes, and symbolic
links, and what a shell is allowed to do with each of them. A path is walked name by
name, links included, as the operating system walks it; everything that a shell does
to files is a function from a tree to a tree. Two trees with the same node and the same
access at every place are equal.
-/

namespace LineShell

/-- What a directory can hold. -/
inductive Node where
  | file (content : Bytes)
  /-- A directory; what it holds is found below its own place. -/
  | directory
  | link (target : Text)
  /-- A device that has nothing to read and forgets what is written to it. It is
  no regular file. -/
  | device
deriving DecidableEq, Repr

/-- A place in a file tree: the names that lead to it from the root. -/
abbrev Place := List Text

/-- What a shell is allowed to do with the entry at a place. -/
inductive Access where
  /-- The entry can be made, written to and removed. -/
  | full
  /-- A file that is there can be written to, but an entry can be neither made nor
  removed, as in a directory that is protected. -/
  | write
  /-- A file that is there can only be read. -/
  | read
deriving DecidableEq, Repr

/-- A file tree. -/
structure FileTree where
  /-- What is where. The root is not listed: it is always a directory. -/
  nodes : Std.ExtTreeMap Place Node
  start : Place
  /-- What is allowed where. Nothing that is done to the files changes it. -/
  access : Place → Access := fun _ => .full

namespace FileTree

def empty : FileTree :=
  { nodes := ∅, start := [] }

def node? (tree : FileTree) (place : Place) : Option Node :=
  if place = [] then some .directory else tree.nodes[place]?

def insert (tree : FileTree) (place : Place) (node : Node) : FileTree :=
  { tree with nodes := tree.nodes.insert place node }

def erase (tree : FileTree) (place : Place) : FileTree :=
  { tree with nodes := tree.nodes.erase place }

/-- The names in the directory at a place, in ascending order. -/
def namesIn (tree : FileTree) (place : Place) : List Text :=
  tree.nodes.keys.filterMap fun entry =>
    if entry.dropLast = place then entry.getLast? else none

/-- Where a path leads. -/
inductive Destination where
  | found (place : Place) (node : Node)
  /-- All of it but the last name leads to a directory, which has no such
  name. -/
  | vacant (place : Place)
  /-- A name before the last is missing on the way, or there is no place to start
  from. -/
  | missing
  /-- It leads nowhere, and no making of directories can change that: a name or
  the path is too long, there are too many links, a file stands in the way, or
  the path holds a character that no path can have. -/
  | nowhere
deriving DecidableEq, Repr

def nameLimit : Nat := 255

def pathLimit : Nat := 4095

def linkLimit : Nat := 40

/-- The steps that a path asks for: its names, and one more step into the
directory itself where the path ends in a slash. -/
def stepsOf (path : Text) : List Text :=
  let names := (path.split '/').filter (· ≠ [])
  if path.getLast? = some '/' then names ++ [Path.here] else names

/-- Walks from a directory along some names. A link is handed on with its place's
directory and with the steps that are left; only a last link may stay. -/
def walkNames (tree : FileTree) (follow : Bool)
    (chase : Place → List Text → Destination) : Place → List Text → Destination
  | place, [] => .found place .directory
  | place, name :: rest =>
    if name = Path.here then walkNames tree follow chase place rest
    else if name = Path.above then walkNames tree follow chase place.dropLast rest
    else if nameLimit < (Text.encode name).length then .nowhere
    else
      match tree.node? (place ++ [name]) with
      | none => if rest = [] then .vacant (place ++ [name]) else .missing
      | some .directory => walkNames tree follow chase (place ++ [name]) rest
      | some (.file content) =>
        if rest = [] then .found (place ++ [name]) (.file content) else .nowhere
      | some .device => if rest = [] then .found (place ++ [name]) .device else .nowhere
      | some (.link target) =>
        if rest = [] ∧ follow = false then .found (place ++ [name]) (.link target)
        else chase (if Path.isAbsolute target then [] else place) (stepsOf target ++ rest)

/-- Walks from a directory along some names, through at most so many links. -/
def walk (tree : FileTree) (follow : Bool) : Nat → Place → List Text → Destination
  | 0 => walkNames tree follow fun _ _ => .nowhere
  | hops + 1 => walkNames tree follow (walk tree follow hops)

/-- Where a path leads, with a link as its last name followed or not. -/
def locate (tree : FileTree) (follow : Bool) (path : Text) : Destination :=
  if path = [] then .missing
  else if '\x00' ∈ path ∨ pathLimit < (Text.encode path).length then .nowhere
  else
    let place := if Path.isAbsolute path then [] else tree.start
    match tree.node? place with
    | some .directory => walk tree follow linkLimit place (stepsOf path)
    | _ => .missing

def isFile (tree : FileTree) (path : Text) : Bool :=
  match tree.locate true path with
  | .found _ (.file _) => true
  | _ => false

def isDirectory (tree : FileTree) (path : Text) : Bool :=
  match tree.locate true path with
  | .found _ .directory => true
  | _ => false

def isPresent (tree : FileTree) (path : Text) : Bool :=
  match tree.locate true path with
  | .found .. => true
  | _ => false

/-- The content of the file that a path leads to. A device has none. -/
def read? (tree : FileTree) (path : Text) : Option Bytes :=
  match tree.locate true path with
  | .found _ (.file content) => some content
  | .found _ .device => some []
  | _ => none

/-- The names in the directory that a path leads to, in ascending order. -/
def list? (tree : FileTree) (path : Text) : Option (List Text) :=
  match tree.locate true path with
  | .found place .directory => some (tree.namesIn place)
  | _ => none

/-- Removes the file, the device or the link that a path names, where that is allowed;
the last name is not followed. A directory stays. -/
def remove (tree : FileTree) (path : Text) : FileTree :=
  match tree.locate false path with
  | .found _ .directory => tree
  | .found place _ => if tree.access place = .full then tree.erase place else tree
  | _ => tree

/-- Opens the file or the device that a path leads to, and makes an empty file
where only the last name is missing, as far as that is allowed. The answer is the
place to write to. -/
def openFile? (tree : FileTree) (path : Text) : Option (FileTree × Place) :=
  match tree.locate true path with
  | .found place (.file _) => if tree.access place = .read then none else some (tree, place)
  | .found place .device => some (tree, place)
  | .vacant place =>
    if tree.access place = .full then some (tree.insert place (.file []), place) else none
  | _ => none

/-- Adds bytes to the end of the file at a place. A device, and a file that has
been removed since it was opened, are written to in vain. -/
def append (tree : FileTree) (place : Place) (bytes : Bytes) : FileTree :=
  match tree.node? place with
  | some (.file content) => tree.insert place (.file (content ++ bytes))
  | _ => tree

/-- Gives the file that a path leads to a new content, and makes it where it is
missing. Where that cannot be done the tree stays. -/
def write (tree : FileTree) (path : Text) (content : Bytes) : FileTree :=
  match tree.openFile? path with
  | some (tree, place) =>
    match tree.node? place with
    | some (.file _) => tree.insert place (.file content)
    | _ => tree
  | none => tree

/-- Makes one directory, where all but the last name of the path is there and it is
allowed. A slash at the end of the path changes nothing. -/
def makeDirectory (tree : FileTree) (path : Text) : FileTree :=
  match tree.locate false (path.reverse.dropWhile (· = '/')).reverse with
  | .vacant place => if tree.access place = .full then tree.insert place .directory else tree
  | _ => tree

/-- Makes a symbolic link, where all but the last name of the path is there and it is
allowed. -/
def makeLink (tree : FileTree) (path target : Text) : FileTree :=
  match tree.locate false path with
  | .vacant place => if tree.access place = .full then tree.insert place (.link target) else tree
  | _ => tree

/-- Makes a directory and those above it, as many names up as needed. Those above
are made only where a name is missing on the way, and not where the path could
lead nowhere in any case. -/
def makeDirectoriesUpTo : Nat → FileTree → Text → FileTree
  | 0, tree, _ => tree
  | depth + 1, tree, path =>
    match tree.locate false path with
    | .missing =>
      match Path.parent? path with
      | some directory => (makeDirectoriesUpTo depth tree directory).makeDirectory path
      | none => tree
    | _ => tree.makeDirectory path

/-- Makes a directory together with those above it. A path has fewer names than
characters, so its length bounds the way up. -/
def makeDirectories (tree : FileTree) (path : Text) : FileTree :=
  makeDirectoriesUpTo path.length tree path

/-- Puts a node at a place, in place of what was there, together with the
directories above it. -/
def plant (tree : FileTree) (place : Place) (node : Node) : FileTree :=
  let directories := (List.range place.length).map place.take
  let tree := directories.foldl
    (fun tree directory =>
      match tree.node? directory with
      | some _ => tree
      | none => tree.insert directory .directory) tree
  tree.insert place node

/-- Takes what a path names out of the tree, together with all that is below it.
The last name is not followed, so of a link only the link goes. -/
def uproot (tree : FileTree) (path : Text) : FileTree :=
  match tree.locate false path with
  | .found place _ =>
    { tree with nodes := tree.nodes.filter fun entry _ => !place.isPrefixOf entry }
  | _ => tree

/-- All that is below a place, as the names that lead there from it, in
order. -/
def below (tree : FileTree) (place : Place) : List (Place × Node) :=
  tree.nodes.toList.filterMap fun (entry, node) =>
    if place.isPrefixOf entry && place.length < entry.length then
      some (entry.drop place.length, node)
    else none

example : (((empty.makeDirectories "/d/e".toList).makeLink "/l".toList "d/e".toList).write
    "/l/f".toList [0x61]).read? "/d/e/f".toList = some [0x61] := by decide +kernel
example : ((((empty.makeDirectories "/d/".toList).makeLink "/l".toList "d".toList).write
    "/d/f".toList []).uproot "/l".toList).below [] =
    [(["d".toList], .directory), (["d".toList, "f".toList], .file [])] := by decide +kernel

end FileTree

end LineShell
