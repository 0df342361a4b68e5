import LineShell.Toml.Number

/-!
Values and documents. A document is a list of lines, each with a header or with
a key and its value or with neither; it is read as a whole or not at all.
-/

namespace LineShell.Toml

open Reader

def boolean : Reader Bool :=
  (do word "true".toList; pure true) <|> (do word "false".toList; pure false)

/-- A key with what it stands for. -/
structure Pair where
  path : List Text
  name : Text
  item : Item

def pair (value : Reader Item) : Reader Pair := do
  let names ← key
  char '='
  spaces
  let item ← value
  match names.getLast? with
  | some name => pure { path := names.dropLast, name, item }
  | none => failure

/-- The entries of a table that some pairs make, added one by one. -/
def addPairs? : List Pair → Entries → Option Entries
  | [], entries => some entries
  | pair :: rest, entries =>
    match entries.addDotted? pair.name pair.item pair.path with
    | some entries => addPairs? rest entries
    | none => none

/-- An array: values with commas between them. One more comma may follow the
last value, and lines may end anywhere between. -/
def array (value : Reader Item) : Reader Item := do
  char '['
  let items ← separated (layout *> value <* layout) (char ',')
  if items.isEmpty then layout
  else
    let _ ← optional (char ',')
    layout
  char ']'
  pure (.array items)

/-- A table between braces: pairs with commas between them, on one line. -/
def bracedTable (value : Reader Item) : Reader Item := do
  char '{'
  let pairs ← separated (pair value <* spaces) (char ',')
  spaces
  char '}'
  match addPairs? pairs [] with
  | some entries => pure (.table .braces entries)
  | none => failure

/-- A value with at most so many arrays and tables around each other in it. -/
def value : Nat → Reader Item
  | 0 => (Item.string <$> anyString) <|> number <|> (Item.boolean <$> boolean)
  | depth + 1 =>
    (Item.string <$> anyString) <|> array (value depth) <|> bracedTable (value depth) <|>
    number <|> (Item.boolean <$> boolean)

/-- What a line of a document says. -/
inductive Line where
  | blank
  | header (names : List Text)
  | rowHeader (names : List Text)
  | pair (pair : Pair)

def lineContent : Reader Line :=
  (do word "[[".toList; let names ← key; word "]]".toList; pure (.rowHeader names)) <|>
  (do char '['; let names ← key; char ']'; pure (.header names)) <|>
  (Line.pair <$> pair (value (depthLimit - 1))) <|>
  pure .blank

/-- A line of a document with its end. There is none after the end of the
text. -/
def line : Reader Line := fun text =>
  if text.isEmpty then none
  else (do spaces; let content ← lineContent; lineEnd; pure content) text

/-- A document as far as it has been read: the table that keys go into, by the
names that lead to it, and all that there is. -/
structure Document where
  path : List Text := []
  entries : Entries := []

def Document.add? (document : Document) : Line → Option Document
  | .blank => some document
  | .header names =>
    match names.getLast? with
    | some name =>
      (Entries.alter? (Entries.open? name) names.dropLast document.entries).map
        fun entries => { path := names, entries }
    | none => none
  | .rowHeader names =>
    match names.getLast? with
    | some name =>
      (Entries.alter? (Entries.openRow? name) names.dropLast document.entries).map
        fun entries => { path := names, entries }
    | none => none
  | .pair pair =>
    (Entries.alter? (Entries.addDotted? pair.name pair.item pair.path) document.path
      document.entries).map fun entries => { document with entries }

/-- Adds what some lines say to a document, one after the other. -/
def Document.addAll? : List Line → Document → Option Document
  | [], document => some document
  | line :: rest, document =>
    match document.add? line with
    | some document => addAll? rest document
    | none => none

/-- The entries of a document, which may begin with a byte order mark. -/
def parse? (text : Text) : Option Entries :=
  let lines : Reader (List Line) := do
    let _ ← optional (char '\uFEFF')
    let lines ← many line
    atEnd
    pure lines
  match lines text with
  | some (lines, _) => (Document.addAll? lines {}).map Document.entries
  | none => none

end LineShell.Toml
