import LineShell.Text

/-!
The lines of a text. A line ends at a line feed, or at a carriage return and a
line feed together. A last line need not have an end, and then keeps a carriage
return that it ends in.
-/

namespace LineShell.Text

/-- A line without the carriage return that belonged to its end. -/
def dropReturn (line : Text) : Text :=
  if line.getLast? = some '\r' then line.dropLast else line

/-- The lines among the pieces between line feeds: every piece but the last was
ended by one, and an empty last piece is no line. -/
def linesOfPieces : List Text → List Text
  | [] => []
  | [last] => if last.isEmpty then [] else [last]
  | piece :: next :: pieces => dropReturn piece :: linesOfPieces (next :: pieces)

def lines (text : Text) : List Text :=
  linesOfPieces (text.split '\n')

/-- The text of a list of lines, each with a line feed at its end. -/
def unlines (lines : List Text) : Text :=
  lines.flatMap fun line => line ++ ['\n']

example : lines "one\r\ntwo\n\nthree".toList =
    ["one".toList, "two".toList, [], "three".toList] := by decide
example : lines "a\rb\r\r\nc\r".toList = ["a\rb\r".toList, "c\r".toList] := by decide
example : lines "\n\n".toList = [[], []] := by decide
example : lines [] = [] := by decide

end LineShell.Text
