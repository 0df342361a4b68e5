import LineShell.Text.Blank

/-!
Text as a list of characters, and the few ways in which the shell cuts it up:
trimming blanks, splitting at a mark, cutting before the first or the last
mark, and looking for one text inside another.
-/

namespace LineShell

/-- Text is the list of its characters, so that splitting, trimming and
searching are functions on lists. -/
abbrev Text := List Char

namespace Text

def trimStart (text : Text) : Text :=
  text.dropWhile isBlank

def trimEnd (text : Text) : Text :=
  (text.reverse.dropWhile isBlank).reverse

def trim (text : Text) : Text :=
  text.trimStart.trimEnd

def allBlank (text : Text) : Bool :=
  text.all isBlank

/-- The pieces between the occurrences of a mark. There is one piece more than
there are marks, so the list is never empty. -/
def split (mark : Char) : Text → List Text
  | [] => [[]]
  | c :: rest =>
    if c = mark then [] :: split mark rest
    else
      match split mark rest with
      | [] => [[c]]
      | piece :: pieces => (c :: piece) :: pieces

/-- The pieces with a mark between each two of them. -/
def joinWith (mark : Char) : List Text → Text
  | [] => []
  | [piece] => piece
  | piece :: next :: pieces => piece ++ mark :: joinWith mark (next :: pieces)

/-- The text before the first mark and the text from that mark on, if there is
a mark. -/
def cutFirst (mark : Char) : Text → Option (Text × Text)
  | [] => none
  | c :: rest =>
    if c = mark then some ([], c :: rest)
    else (cutFirst mark rest).map fun (before, after) => (c :: before, after)

/-- The text before the last mark and the text from that mark on, if there is
a mark. -/
def cutLast (mark : Char) : Text → Option (Text × Text)
  | [] => none
  | c :: rest =>
    match cutLast mark rest with
    | some (before, after) => some (c :: before, after)
    | none => if c = mark then some ([], c :: rest) else none

/-- Whether a query occurs in a text as a contiguous piece. -/
def occursIn (query : Text) : Text → Bool
  | [] => query.isEmpty
  | c :: rest => query.isPrefixOf (c :: rest) || occursIn query rest

def ofNat (n : Nat) : Text :=
  Nat.toDigits 10 n

theorem split_ne_nil (mark : Char) (text : Text) : text.split mark ≠ [] := by
  cases text with
  | nil => simp [split]
  | cons c rest =>
    simp only [split]
    split
    · simp
    · split <;> simp

/-- Joining the pieces of a text with the mark gives the text back. -/
theorem joinWith_split (mark : Char) (text : Text) :
    joinWith mark (text.split mark) = text := by
  induction text with
  | nil => rfl
  | cons c rest ih =>
    have hne := split_ne_nil mark rest
    simp only [split]
    cases hs : split mark rest with
    | nil => exact absurd hs hne
    | cons piece pieces =>
      rw [hs] at ih
      by_cases h : c = mark
      · simp [h, joinWith, ih]
      · cases pieces with
        | nil => simpa [h, joinWith] using ih
        | cons next pieces => simpa [h, joinWith] using ih

theorem not_mem_of_mem_split {mark : Char} {text piece : Text}
    (h : piece ∈ text.split mark) : mark ∉ piece := by
  induction text generalizing piece with
  | nil => simp_all [split]
  | cons c rest ih =>
    simp only [split] at h
    split at h
    · rcases List.mem_cons.1 h with rfl | h
      · simp
      · exact ih h
    · rename_i hc
      split at h
      · rename_i hs
        exact absurd hs (split_ne_nil mark rest)
      · rename_i head tail hs
        rcases List.mem_cons.1 h with rfl | h
        · have : mark ∉ head := ih (by simp [hs])
          simp only [List.mem_cons, not_or]
          exact ⟨fun e => hc e.symm, this⟩
        · exact ih (by simp [hs, h])

/-- Both parts of a first cut together are the text, the second part begins
with the mark, and the first part is free of it. -/
theorem cutFirst_eq_some {mark : Char} {text before after : Text}
    (h : text.cutFirst mark = some (before, after)) :
    text = before ++ after ∧ after.head? = some mark ∧ mark ∉ before := by
  induction text generalizing before with
  | nil => simp [cutFirst] at h
  | cons c rest ih =>
    simp only [cutFirst] at h
    split at h
    · rename_i hc
      simp only [Option.some.injEq, Prod.mk.injEq] at h
      obtain ⟨rfl, rfl⟩ := h
      simp [hc]
    · rename_i hc
      obtain ⟨⟨b, a⟩, hb, he⟩ := Option.map_eq_some_iff.1 h
      simp only [Prod.mk.injEq] at he
      obtain ⟨rfl, rfl⟩ := he
      obtain ⟨h1, h2, h3⟩ := ih hb
      refine ⟨by simp [h1], h2, ?_⟩
      simp only [List.mem_cons, not_or]
      exact ⟨fun e => hc e.symm, h3⟩

/-- A text has no first cut exactly when it is free of the mark. -/
theorem cutFirst_eq_none {mark : Char} {text : Text} :
    text.cutFirst mark = none ↔ mark ∉ text := by
  induction text with
  | nil => simp [cutFirst]
  | cons c rest ih =>
    by_cases hc : c = mark
    · simp [cutFirst, hc]
    · simp only [cutFirst, hc, if_false, Option.map_eq_none_iff, ih, List.mem_cons, not_or]
      exact ⟨fun h => ⟨fun e => hc e.symm, h⟩, fun h => h.2⟩

/-- Both parts of a last cut together are the text, the second part begins
with the mark, and nothing after that mark is the mark again. -/
theorem cutLast_eq_some {mark : Char} {text before after : Text}
    (h : text.cutLast mark = some (before, after)) :
    text = before ++ after ∧ after.head? = some mark ∧ mark ∉ after.tail := by
  induction text generalizing before with
  | nil => simp [cutLast] at h
  | cons c rest ih =>
    simp only [cutLast] at h
    split at h
    · rename_i b a hb
      simp only [Option.some.injEq, Prod.mk.injEq] at h
      obtain ⟨rfl, rfl⟩ := h
      obtain ⟨h1, h2, h3⟩ := ih hb
      exact ⟨by simp [h1], h2, h3⟩
    · rename_i hn
      split at h
      · rename_i hc
        simp only [Option.some.injEq, Prod.mk.injEq] at h
        obtain ⟨rfl, rfl⟩ := h
        refine ⟨rfl, by simp [hc], ?_⟩
        clear ih
        show mark ∉ rest
        induction rest with
        | nil => simp
        | cons d more ih =>
          simp only [cutLast] at hn
          split at hn
          · simp at hn
          · rename_i hm
            split at hn
            · simp at hn
            · rename_i hd
              simp only [List.mem_cons, not_or]
              exact ⟨fun e => hd e.symm, ih hm⟩
      · simp at h

/-- A query occurs in a text exactly when it is a contiguous piece of it. -/
theorem occursIn_iff (query text : Text) :
    query.occursIn text = true ↔ query <:+: text := by
  induction text with
  | nil => simp [occursIn]
  | cons c rest ih =>
    rw [occursIn, Bool.or_eq_true, ih, List.infix_cons_iff, List.isPrefixOf_iff_prefix]

end Text

end LineShell
