/-!
Sets of characters, given as ranges of code points.
-/

namespace LineShell.Text

/-- Whether a code point lies in one of some ranges, both ends included. -/
def inRanges (ranges : List (Nat × Nat)) (n : Nat) : Bool :=
  ranges.any fun range => range.1 ≤ n && n ≤ range.2

/-- How many code points some ranges hold, provided that no two of them
overlap. -/
def sizeOfRanges (ranges : List (Nat × Nat)) : Nat :=
  ranges.foldl (fun size range => size + (range.2 + 1 - range.1)) 0

end LineShell.Text
