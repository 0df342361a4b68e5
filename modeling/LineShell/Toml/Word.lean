import LineShell.Text.Number
import LineShell.Toml.Reader

/-!
The words of TOML: blanks, line ends, comments, strings of four kinds, and
keys.
-/

namespace LineShell.Toml

open Reader

/-- The two characters that are blank within a line. -/
def isSpace (c : Char) : Bool :=
  c = ' ' || c = '\t'

/-- Whether a character may stand in a comment or in a string as it is: it is a
tab or no control character. -/
def isPlain (c : Char) : Bool :=
  c = '\t' || (0x20 ≤ c.toNat && c.toNat ≠ 0x7F)

def spaces : Reader Unit := do
  let _ ← run isSpace

def newline : Reader Unit :=
  word "\n".toList <|> word "\r\n".toList

def comment : Reader Unit := do
  char '#'
  let _ ← run isPlain

def lineEnd : Reader Unit := do
  spaces
  let _ ← optional comment
  newline <|> atEnd

/-- Blanks, ends of lines, and comments that end with their line. -/
def layout : Reader Unit := do
  let _ ← many ((do let _ ← run1 isSpace) <|> newline <|> (do comment; newline))

/-- The character with a code that is given by so many hexadecimal digits. -/
def scalar (count : Nat) : Reader Char := do
  let digits ← exactly (Text.isDigitIn 16) count
  match Text.digits? 16 digits with
  | some value => if value.isValidChar then pure (Char.ofNat value) else failure
  | none => failure

/-- The character that follows a backslash stands for. -/
def escaped : Reader Char := do
  match ← anyChar with
  | 'b' => pure '\x08'
  | 't' => pure '\t'
  | 'n' => pure '\n'
  | 'f' => pure '\x0c'
  | 'r' => pure '\r'
  | '"' => pure '"'
  | '\\' => pure '\\'
  | 'u' => scalar 4
  | 'U' => scalar 8
  | _ => failure

def basicString : Reader Text := do
  char '"'
  let content ← many ((char '\\' *> escaped) <|> satisfy fun c => isPlain c && c ≠ '"' && c ≠ '\\')
  char '"'
  pure content

/-- A string between single quotes, on one line, in which every character stands
for itself. -/
def literalString : Reader Text := do
  char '\''
  let content ← run fun c => isPlain c && c ≠ '\''
  char '\''
  pure content

/-- A quote that does not begin the three that end a string. -/
def looseQuote (quote : Char) : Reader Text := fun text =>
  if [quote, quote, quote].isPrefixOf text then none
  else (do char quote; pure [quote]) text

/-- The three quotes that end a string, with at most two quotes before them that
still belong to it. -/
def closingQuotes (quote : Char) : Reader Text :=
  (do word (List.replicate 5 quote); pure [quote, quote]) <|>
  (do word (List.replicate 4 quote); pure [quote]) <|>
  (do word (List.replicate 3 quote); pure [])

/-- A backslash at the end of a line: it takes away the line end and the blanks
and line ends after it. -/
def lineContinuation : Reader Unit := do
  char '\\'
  spaces
  newline
  let _ ← many (newline <|> (do let _ ← run1 isSpace))

/-- A string between three quotes on each side, which may have several lines. A
line end right after the first quotes is not part of it. -/
def multilineString (quote : Char) (piece : Reader Text) : Reader Text := do
  word (List.replicate 3 quote)
  let _ ← optional newline
  let pieces ← many ((do newline; pure ['\n']) <|> looseQuote quote <|> piece)
  let last ← closingQuotes quote
  pure (pieces.flatten ++ last)

/-- A piece of a string with several lines between double quotes. -/
def basicPiece : Reader Text :=
  (do lineContinuation; pure []) <|>
  (do char '\\'; let c ← escaped; pure [c]) <|>
  (do let c ← satisfy fun c => isPlain c && c ≠ '"' && c ≠ '\\'; pure [c])

/-- A piece of a string with several lines between single quotes. -/
def literalPiece : Reader Text := do
  let c ← satisfy fun c => isPlain c && c ≠ '\''
  pure [c]

def anyString : Reader Text :=
  multilineString '"' basicPiece <|> basicString <|>
  multilineString '\'' literalPiece <|> literalString

/-- Whether a character may stand in a key without quotes. -/
def isKeyChar (c : Char) : Bool :=
  c.isAlphanum || c = '-' || c = '_'

def simpleKey : Reader Text :=
  basicString <|> literalString <|> run1 isKeyChar

/-- How deep values may be nested, and how many names a key may have. -/
def depthLimit : Nat := 80

def key : Reader (List Text) :=
  provided (separated (spaces *> simpleKey <* spaces) (char '.'))
    fun names => names ≠ [] && names.length < depthLimit

end LineShell.Toml
