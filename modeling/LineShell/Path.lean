import LineShell.Text

/-!
Paths as text. Everything here is lexical: no file is looked at. A path is
resolved by appending it to a working directory, unless it starts at the root,
and by folding its names on a stack, where `..` takes the name before it away.
-/

namespace LineShell.Path

def here : Text := ['.']

def above : Text := ['.', '.']

def isAbsolute (path : Text) : Bool :=
  path.head? = some '/'

/-- The names along a path, without empty ones and without `.`. -/
def names (path : Text) : List Text :=
  (path.split '/').filter fun name => name ≠ [] && name ≠ here

/-- A path appended to a directory, with a slash between them unless the
directory is empty or ends in one. -/
def join (directory path : Text) : Text :=
  if isAbsolute path then path
  else if directory = [] ∨ directory.getLast? = some '/' then directory ++ path
  else directory ++ '/' :: path

/-- Pushes a name on a stack of names, the last one on top. A `..` takes a name
off, is dropped at the root, and stays at the start of a relative path. -/
def push (rooted : Bool) (stack : List Text) (name : Text) : List Text :=
  if name = above then
    match stack with
    | [] => if rooted then [] else [above]
    | top :: below => if top = above then above :: stack else below
  else name :: stack

/-- The names that are left when `..` has been folded out as far as possible. -/
def fold (rooted : Bool) (names : List Text) : List Text :=
  (names.foldl (push rooted) []).reverse

/-- The text of a path that starts at the root, or does not, and has the given
names. -/
def render (rooted : Bool) (names : List Text) : Text :=
  if rooted then '/' :: Text.joinWith '/' names else Text.joinWith '/' names

/-- A path without `.`, without doubled or trailing slashes, and with `..` only
where nothing is left for it to take away. -/
def normalize (path : Text) : Text :=
  render (isAbsolute path) (fold (isAbsolute path) (names path))

/-- The path that an argument stands for in a working directory. -/
def resolve (directory path : Text) : Text :=
  normalize (join directory path)

/-- The pieces of a path from the last one on that stands for something. A dot
stands for something only at the very start of a relative path. -/
def dropIdle (rooted : Bool) (reversed : List Text) : List Text :=
  match reversed with
  | [] => []
  | piece :: before =>
    if piece = [] ∨ (piece = here ∧ (rooted = true ∨ before ≠ [])) then
      dropIdle rooted before
    else reversed

/-- The path without its last name, as a piece of the text that it is: what is
left keeps its spelling. The root and the empty path have none. -/
def parent? (path : Text) : Option Text :=
  let rooted := isAbsolute path
  let body : Text := if rooted then path.tail else path
  match dropIdle rooted (body.split '/').reverse with
  | [] => none
  | _ :: before => some (render rooted (dropIdle rooted before).reverse)

example : resolve "/a/b".toList "../c/./d//".toList = "/a/c/d".toList := by decide
example : resolve "/".toList "../..".toList = "/".toList := by decide
example : resolve "a".toList "../../b".toList = "../b".toList := by decide
example : resolve [] ".".toList = [] := by decide
example : parent? "/a/b/".toList = some "/a".toList := by decide
example : parent? "/".toList = none := by decide
example : parent? "a".toList = some [] := by decide
example : parent? "./b".toList = some ".".toList := by decide
example : parent? "///a//./b/.".toList = some "///a".toList := by decide

end LineShell.Path
