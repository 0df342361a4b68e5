import LineShell.WordCount

/-!
The stages that turn lines into lines. Each is a state that takes one line at a
time and says what it passes on at once, when it has seen enough, and what it
passes on at the end; what it makes of a list of lines follows from these.
-/

namespace LineShell

def keptLines : Nat := 10

/-- A stage that turns lines into lines, together with what it has seen. -/
inductive Filter where
  | matching (query : Text)
  /-- Passes each line on when it comes for the first time. -/
  | distinct (seen : List Text)
  | first (left : Nat)
  | last (kept : List Text)
  | counting (count : WordCount)
deriving DecidableEq, Repr

namespace Filter

/-- Takes one line, and says what is passed on at once. -/
def take : Filter → Text → Filter × Option Text
  | matching query, line => (matching query, if query.occursIn line then some line else none)
  | distinct seen, line =>
    if line ∈ seen then (distinct seen, none) else (distinct (line :: seen), some line)
  | first left, line => (first (left - 1), some line)
  | last kept, line =>
    (last (if kept.length = keptLines then kept.tail ++ [line] else kept ++ [line]), none)
  | counting count, line => (counting (count.addLine line), none)

def isFull : Filter → Bool
  | first 0 => true
  | _ => false

def flush : Filter → List Text
  | last kept => kept
  | counting count => [count.render]
  | _ => []

/-- Whether the filter gives its input up when it is through. -/
def closesInput : Filter → Bool
  | first _ => true
  | _ => false

/-- What the filter makes of the lines that are left to come. -/
def run : Filter → List Text → List Text
  | filter, [] => filter.flush
  | filter, line :: rest =>
    if filter.isFull then filter.flush
    else
      let (next, passed) := filter.take line
      passed.toList ++ next.run rest

end Filter

end LineShell
