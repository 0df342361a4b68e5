import LineShell.Text.Ranges

/-!
The characters that count as blank: those with the Unicode property
`White_Space`. Trimming a command, and asking whether there is anything in it
at all, both rest on this table.
-/

namespace LineShell.Text

/-- The ranges of code points with the property `White_Space`, in order. The
zero-width space and the byte order mark do not have it. -/
def blankRanges : List (Nat × Nat) :=
  [(0x0009, 0x000D), (0x0020, 0x0020), (0x0085, 0x0085), (0x00A0, 0x00A0),
   (0x1680, 0x1680), (0x2000, 0x200A), (0x2028, 0x2029), (0x202F, 0x202F),
   (0x205F, 0x205F), (0x3000, 0x3000)]

def isBlank (c : Char) : Bool :=
  inRanges blankRanges c.toNat

example : sizeOfRanges blankRanges = 25 := by decide

theorem isBlank_space : isBlank ' ' = true := by
  decide

end LineShell.Text
