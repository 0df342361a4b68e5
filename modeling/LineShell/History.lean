import LineShell.Text.Lines
import LineShell.Text.Utf8

/-!
The lines that a user has entered, as they are remembered from one session to
the next. In the file each entry has a line of its own, in which a backslash
stands before a backslash, and a line feed is written as a letter after one.
-/

namespace LineShell

/-- The remembered lines. -/
structure History where
  entries : List Text := []
  unsaved : Nat := 0
deriving DecidableEq, Repr

namespace History

def limit : Nat := 100

def mark : Text := "#V2".toList

/-- Adds a line, unless it is empty or is the last one again. The oldest line
goes where there would be too many. -/
def add (history : History) (line : Text) : History :=
  if line = [] ∨ history.entries.getLast? = some line then history
  else
    let kept := if history.entries.length = limit then history.entries.tail else history.entries
    let entries := kept ++ [line]
    { entries, unsaved := min (history.unsaved + 1) entries.length }

def escape : Text → Text
  | [] => []
  | c :: rest =>
    if c = '\\' then '\\' :: '\\' :: escape rest
    else if c = '\n' then '\\' :: 'n' :: escape rest
    else c :: escape rest

/-- The entry that a line of the file stands for, if its backslashes are in
order. -/
def unescape? : Text → Option Text
  | [] => some []
  | '\\' :: '\\' :: rest => (unescape? rest).map ('\\' :: ·)
  | '\\' :: 'n' :: rest => (unescape? rest).map ('\n' :: ·)
  | c :: rest => if c = '\\' then none else (unescape? rest).map (c :: ·)

/-- The lines of a file, as far as each can be read as text. -/
def readableLines : List Bytes → List (Option Text)
  | [] => []
  | [last] => if last.isEmpty then [] else [Text.decode? last]
  | piece :: next :: pieces =>
    (Text.decode? piece).map Text.dropReturn :: readableLines (next :: pieces)

def splitLines : Bytes → List Bytes
  | [] => [[]]
  | byte :: rest =>
    if byte = 10 then [] :: splitLines rest
    else
      match splitLines rest with
      | [] => [[byte]]
      | piece :: pieces => (byte :: piece) :: pieces

/-- Adds the lines of a file. A line that is no text ends the reading, and what
was read before it then counts as not saved. -/
def addLines (marked : Bool) : List (Option Text) → History → History
  | [], history => { history with unsaved := 0 }
  | none :: _, history => history
  | some line :: rest, history =>
    let entry := if marked then (unescape? line).getD line else line
    addLines marked rest (if line = [] then history else history.add entry)

/-- The history in a file. The mark in its first line tells that backslashes are
written twice. -/
def load (content : Bytes) : History :=
  match readableLines (splitLines content) with
  | some line :: rest =>
    if line = mark then addLines true rest {} else addLines false rest (add {} line)
  | _ => {}

def render (history : History) : Bytes :=
  Text.encode (Text.unlines (mark :: history.entries.map escape))

/-- A line of the file that an entry was written to stands for that entry. -/
theorem unescape_escape (entry : Text) : unescape? (escape entry) = some entry := by
  induction entry with
  | nil => rfl
  | cons c rest ih =>
    simp only [escape]
    split
    · rename_i h
      simp [unescape?, ih, h]
    · split
      · rename_i h
        simp [unescape?, ih, h]
      · rename_i h _
        rw [unescape?]
        · simp [h, ih]
        · intros
          simp_all
        · intros
          simp_all

end History

end LineShell
