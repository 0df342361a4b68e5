import LineShell.Text

/-!
Counting lines, words and characters. Words are the pieces between single
spaces: an empty piece between two spaces counts, empty pieces at the end of a
line do not, and a line without any space is one word, even when it is empty.
-/

namespace LineShell

/-- Running totals over some lines. -/
structure WordCount where
  lines : Nat := 0
  words : Nat := 0
  /-- How many characters they have together, line ends not among them. -/
  chars : Nat := 0
deriving DecidableEq, Repr

namespace WordCount

def wordsIn (line : Text) : Nat :=
  if ' ' ∈ line then
    ((line.split ' ').reverse.dropWhile List.isEmpty).length
  else 1

def addLine (count : WordCount) (line : Text) : WordCount :=
  { lines := count.lines + 1
    words := count.words + wordsIn line
    chars := count.chars + line.length }

def ofLines (lines : List Text) : WordCount :=
  lines.foldl addLine {}

/-- The totals as one line: three numbers with spaces between them. -/
def render (count : WordCount) : Text :=
  Text.ofNat count.lines ++ ' ' :: Text.ofNat count.words ++ ' ' :: Text.ofNat count.chars

example : wordsIn [] = 1 := by decide
example : wordsIn "  ".toList = 0 := by decide
example : wordsIn "c d  e ".toList = 4 := by decide

end WordCount

end LineShell
