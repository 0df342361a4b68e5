import LineShell.Text.Cluster
import LineShell.Text.Utf8

/-!
Lines that hold backspaces. Such a line stands for what would be left of it had
it been typed: a backspace takes the cluster before it away. Clusters are told
apart in the line as it came, with its backspaces, so a mark that follows a
backspace never goes with what stands before it.
-/

namespace LineShell.Text

/-- The character that takes back what was typed before it. -/
def backspace : Char := '\x08'

def byteCount (text : Text) : Nat :=
  (encode text).length

/-- The sizes of clusters are kept in one byte each, so they count up to this
number and then from zero again. -/
def sizeBound : Nat := 256

/-- A line as far as it has been typed. -/
structure Typed where
  reversed : Text := []
  sizes : List Nat := []
deriving DecidableEq, Repr

/-- A text without as many of its first characters as fit into so many
bytes. -/
def dropBytes : Nat → Text → Text
  | _, [] => []
  | count, c :: rest =>
    let size := (encodeChar c).length
    if size ≤ count then dropBytes (count - size) rest else c :: rest

def Typed.add (typed : Typed) (cluster : Text) : Typed :=
  { reversed := cluster.reverse ++ typed.reversed
    sizes := byteCount cluster % sizeBound :: typed.sizes }

/-- Takes the last cluster back, as far as its size is known. -/
def Typed.takeBack (typed : Typed) : Typed :=
  match typed.sizes with
  | [] => typed
  | size :: sizes => { reversed := dropBytes size typed.reversed, sizes }

def Typed.press (typed : Typed) (cluster : Text) : Typed :=
  if cluster = [backspace] then typed.takeBack else typed.add cluster

/-- What a line stands for. One without backspaces stands for itself. -/
def applyBackspaces (line : Text) : Text :=
  if backspace ∈ line then
    ((clusters line).foldl Typed.press {}).reversed.reverse
  else line

theorem applyBackspaces_of_notMem {line : Text} (h : backspace ∉ line) :
    applyBackspaces line = line := by
  simp [applyBackspaces, h]

example : applyBackspaces "bogsu\x08\x08us".toList = "bogus".toList := by decide +kernel
example : applyBackspaces "\x08\x08a\x08b".toList = "b".toList := by decide +kernel
example : applyBackspaces "be\u0301\u0302\x08\x08x".toList = "x".toList := by decide +kernel
example : applyBackspaces "qe\x08\u0301x".toList = "q\u0301x".toList := by decide +kernel

end LineShell.Text
