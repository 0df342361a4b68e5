import LineShell.Text

/-!
Readers: functions that take a front part off a text, or fail. A choice between
two readers tries the second from where the first began. Repetition stops where
its reader fails, and never goes on for longer than the text.
-/

namespace LineShell.Toml

/-- Reads something off the front of a text, if it is there. -/
abbrev Reader := StateT Text Option

namespace Reader

def satisfy (test : Char → Bool) : Reader Char
  | c :: rest => if test c then some (c, rest) else none
  | [] => none

def anyChar : Reader Char :=
  satisfy fun _ => true

def char (c : Char) : Reader Unit := do
  let _ ← satisfy (· = c)

def word : Text → Reader Unit
  | [] => pure ()
  | c :: rest => do
    char c
    word rest

/-- The longest run of characters that pass a test, which may be empty. -/
def run (test : Char → Bool) : Reader Text := fun text =>
  some (text.takeWhile test, text.dropWhile test)

/-- The longest run of characters that pass a test, with at least one. -/
def run1 (test : Char → Bool) : Reader Text := do
  let first ← satisfy test
  let rest ← run test
  pure (first :: rest)

def exactly (test : Char → Bool) : Nat → Reader Text
  | 0 => pure []
  | count + 1 => do
    let first ← satisfy test
    let rest ← exactly test count
    pure (first :: rest)

/-- What a reader reads, again and again until it fails, at most so often. -/
def upTo {α : Type} (reader : Reader α) : Nat → Reader (List α)
  | 0 => pure []
  | count + 1 => do
    match ← optional reader with
    | some first =>
      let rest ← upTo reader count
      pure (first :: rest)
    | none => pure []

/-- What a reader reads, again and again until it fails. The reader has to read
something each time, so the length of the text bounds the repetition. -/
def many {α : Type} (reader : Reader α) : Reader (List α) := fun text =>
  upTo reader text.length text

/-- What a reader reads, again and again, with something else in between. -/
def separated {α : Type} (reader : Reader α) (separator : Reader Unit) : Reader (List α) := do
  match ← optional reader with
  | some first =>
    let rest ← many (separator *> reader)
    pure (first :: rest)
  | none => pure []

def atEnd : Reader Unit
  | [] => some ((), [])
  | _ :: _ => none

/-- What a reader reads, provided that the value passes a test. -/
def provided {α : Type} (reader : Reader α) (test : α → Bool) : Reader α := do
  let value ← reader
  if test value then pure value else failure

end Reader

end LineShell.Toml
