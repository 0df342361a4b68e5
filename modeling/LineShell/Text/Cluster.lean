import LineShell.Text
import LineShell.Text.BreakClass

/-!
The clusters of a text: its characters as a reader sees them. A letter with its
accents is one, and so are a Hangul syllable, a flag, and a row of joined
pictographs. Whether a cluster ends before a character depends on the class of
the character before it, and in three cases on what stands further back.
-/

namespace LineShell.Text

/-- How far a pictograph has come towards being joined to the next one. -/
inductive Joining where
  | none
  | pictograph
  /-- There is one, perhaps with marks, and then a joiner. -/
  | joined
deriving DecidableEq, Repr

/-- How far a consonant has come towards being linked to the next one. -/
inductive Linking where
  | none
  | consonant
  /-- There is one with marks, of which one is linking. -/
  | linked
deriving DecidableEq, Repr

/-- What has to be known of the text before a character. -/
structure Before where
  last : BreakClass := .other
  /-- Whether the text ends in an odd number of indicators. -/
  oddIndicators : Bool := false
  joining : Joining := .none
  linking : Linking := .none
deriving DecidableEq, Repr

namespace Before

/-- What a text ends in as to pictographs, with one more character. -/
def nextJoining (before : Before) (next : BreakClass) : Joining :=
  match next, before.joining with
  | .pictograph, _ => .pictograph
  | .extending, .pictograph | .linking, .pictograph | .nonJoiner, .pictograph => .pictograph
  | .joiner, .pictograph => .joined
  | _, _ => .none

/-- What a text ends in as to consonants, with one more character. -/
def nextLinking (before : Before) (next : BreakClass) : Linking :=
  match next, before.linking with
  | .consonant, _ => .consonant
  | .linking, .consonant => .linked
  | .linking, state | .extending, state | .joiner, state => state
  | _, _ => .none

/-- What is known of a text with one more character. -/
def push (before : Before) (next : BreakClass) : Before :=
  { last := next
    oddIndicators := next = .indicator && !before.oddIndicators
    joining := before.nextJoining next
    linking := before.nextLinking next }

/-- Whether characters of a class stand alone, whatever is around them. -/
def standsAlone : BreakClass → Bool
  | .carriageReturn | .lineFeed | .control => true
  | _ => false

/-- Whether a character goes on the cluster before it. -/
def joins (before : Before) (next : BreakClass) : Bool :=
  if standsAlone before.last || standsAlone next then
    before.last = .carriageReturn && next = .lineFeed
  else
    match before.last, next with
    | _, .extending | _, .linking | _, .joiner | _, .nonJoiner | _, .spacing => true
    | .preceding, _ => true
    | .leading, .leading | .leading, .vowel => true
    | .leading, .openSyllable | .leading, .closedSyllable => true
    | .openSyllable, .vowel | .openSyllable, .trailing => true
    | .vowel, .vowel | .vowel, .trailing => true
    | .closedSyllable, .trailing | .trailing, .trailing => true
    | .indicator, .indicator => before.oddIndicators
    | _, .pictograph => before.joining = .joined
    | _, .consonant => before.linking = .linked
    | _, _ => false

end Before

/-- The clusters of a text that follows an open cluster. -/
def clustersFrom (before : Before) (cluster : Text) : Text → List Text
  | [] => [cluster]
  | c :: rest =>
    let next := breakClass c
    if before.joins next then clustersFrom (before.push next) (cluster ++ [c]) rest
    else cluster :: clustersFrom (before.push next) [c] rest

def clusters : Text → List Text
  | [] => []
  | c :: rest => clustersFrom ({ : Before }.push (breakClass c)) [c] rest

/-- An open cluster and the text after it are what their clusters hold. -/
theorem flatten_clustersFrom (before : Before) (cluster text : Text) :
    (clustersFrom before cluster text).flatten = cluster ++ text := by
  induction text generalizing before cluster with
  | nil => simp [clustersFrom]
  | cons c rest ih =>
    simp only [clustersFrom]
    split
    · rw [ih]
      simp
    · rw [List.flatten_cons, ih]
      rfl

/-- The clusters of a text hold all of it, in order. -/
theorem flatten_clusters (text : Text) : (clusters text).flatten = text := by
  cases text with
  | nil => rfl
  | cons c rest => exact flatten_clustersFrom _ [c] rest

example : clusters "be\u0301s".toList =
    ["b".toList, "e\u0301".toList, "s".toList] := by decide +kernel
example : clusters "\u1100\u1100\u1161a".toList =
    ["\u1100\u1100\u1161".toList, "a".toList] := by decide +kernel
example : clusters "\u0915\u094D\u0937\u0915".toList =
    ["\u0915\u094D\u0937".toList, "\u0915".toList] := by decide +kernel
example : clusters "🇩🇪🇫".toList = ["🇩🇪".toList, "🇫".toList] := by decide +kernel
example : clusters "👨\u200D👩\u200D\u200D👧".toList =
    ["👨\u200D👩\u200D\u200D".toList, "👧".toList] := by decide +kernel
example : clusters "\r\n\r\u0301".toList =
    ["\r\n".toList, "\r".toList, "\u0301".toList] := by decide +kernel

end LineShell.Text
