import Mathlib.Data.List.DropRight
import Mathlib.Tactic.ByContra
import Mathlib.Tactic.Push
import LineShell.Text

/-!
What cutting and trimming make of a text that is already written as its parts.
Each function of the text module is computed here on such a text, so that a
line can be read from its parts as well as taken apart into them.
-/

namespace LineShell.Text

theorem cutFirst_append {mark : Char} {before : Text} (hfree : mark ∉ before)
    (after : Text) :
    (before ++ mark :: after).cutFirst mark = some (before, mark :: after) := by
  induction before with
  | nil => simp [cutFirst]
  | cons c rest ih =>
      simp only [List.mem_cons, not_or] at hfree
      have hc : c ≠ mark := fun h => hfree.1 h.symm
      simp [cutFirst, hc, ih hfree.2]

private theorem cutLast_eq_none {mark : Char} {text : Text} :
    text.cutLast mark = none ↔ mark ∉ text := by
  induction text with
  | nil => simp [cutLast]
  | cons c rest ih =>
      cases hcut : cutLast mark rest with
      | none =>
          have hfree : mark ∉ rest := ih.mp hcut
          by_cases hc : c = mark
          · simp [cutLast, hcut, hc]
          · simp [cutLast, hcut, hc, hfree, Ne.symm hc]
      | some parts =>
          have hmem : mark ∈ rest := by
            by_contra hfree
            rw [ih.mpr hfree] at hcut
            cases hcut
          simp [cutLast, hcut, hmem]

theorem cutLast_append {mark : Char} {after : Text} (hfree : mark ∉ after)
    (before : Text) :
    (before ++ mark :: after).cutLast mark = some (before, mark :: after) := by
  induction before with
  | nil => simp [cutLast, cutLast_eq_none.mpr hfree]
  | cons c rest ih => simp [cutLast, ih]

private theorem split_of_notMem {mark : Char} {text : Text} (hfree : mark ∉ text) :
    text.split mark = [text] := by
  induction text with
  | nil => rfl
  | cons c rest ih =>
      simp only [List.mem_cons, not_or] at hfree
      have hc : c ≠ mark := fun h => hfree.1 h.symm
      simp [split, hc, ih hfree.2]

/-- The pieces of two texts with the mark between them are those of the one and those of
the other. -/
theorem split_append (mark : Char) (before after : Text) :
    (before ++ mark :: after).split mark = before.split mark ++ after.split mark := by
  induction before with
  | nil => simp [split]
  | cons c rest ih =>
      by_cases hmark : c = mark
      · simp [split, hmark, ih]
      · cases hpieces : split mark rest with
        | nil => exact absurd hpieces (split_ne_nil mark rest)
        | cons piece pieces => simp [split, hmark, ih, hpieces]

theorem split_append_mark {mark : Char} {before : Text} (hfree : mark ∉ before)
    (after : Text) :
    (before ++ mark :: after).split mark = before :: after.split mark := by
  rw [split_append, split_of_notMem hfree]
  rfl

theorem split_replicate (mark : Char) (count : Nat) :
    split mark (List.replicate count mark) = List.replicate (count + 1) [] := by
  induction count with
  | zero => rfl
  | succ count ih => simp [List.replicate_succ, split, ih]

/-- Pieces without the mark come back from their join, and every mark behind it
adds one empty piece. -/
theorem split_joinWith_append {mark : Char} {pieces : List Text} (hne : pieces ≠ [])
    (hfree : ∀ piece ∈ pieces, mark ∉ piece) (count : Nat) :
    split mark (joinWith mark pieces ++ List.replicate count mark) =
      pieces ++ List.replicate count [] := by
  induction pieces with
  | nil => exact absurd rfl hne
  | cons piece rest ih =>
      have hpiece : mark ∉ piece := hfree piece List.mem_cons_self
      cases rest with
      | nil =>
          cases count with
          | zero => simpa [joinWith] using split_of_notMem hpiece
          | succ count =>
              rw [joinWith, List.replicate_succ, split_append_mark hpiece, split_replicate]
              rfl
      | cons next more =>
          have hrest := ih (List.cons_ne_nil _ _)
            fun p hp => hfree p (List.mem_cons_of_mem _ hp)
          rw [joinWith, List.append_assoc, List.cons_append, split_append_mark hpiece, hrest]
          rfl

theorem split_joinWith {mark : Char} {pieces : List Text} (hne : pieces ≠ [])
    (hfree : ∀ piece ∈ pieces, mark ∉ piece) : split mark (joinWith mark pieces) = pieces := by
  simpa using split_joinWith_append hne hfree 0

theorem length_split (mark : Char) (text : Text) :
    (text.split mark).length = text.count mark + 1 := by
  induction text with
  | nil => rfl
  | cons c rest ih =>
      by_cases hmark : c = mark
      · simp [split, hmark, ih]
      · cases hpieces : split mark rest with
        | nil => exact absurd hpieces (split_ne_nil mark rest)
        | cons piece pieces =>
            rw [hpieces] at ih
            simpa [split, hmark, hpieces] using ih

theorem split_concat_mark (mark : Char) (text : Text) :
    (text ++ [mark]).split mark = text.split mark ++ [[]] :=
  split_append mark text []

theorem getLast?_split_concat {mark c : Char} (hc : c ≠ mark) (text : Text) :
    ((text ++ [c]).split mark).getLast? ≠ some [] := by
  induction text with
  | nil => simp [split, hc]
  | cons first rest ih =>
      cases hpieces : split mark (rest ++ [c]) with
      | nil => exact absurd hpieces (split_ne_nil mark _)
      | cons piece pieces =>
          rw [hpieces] at ih
          by_cases hmark : first = mark
          · simpa [split, hmark, hpieces] using ih
          · cases pieces with
            | nil => simp [split, hmark, hpieces]
            | cons next more => simpa [split, hmark, hpieces] using ih

theorem joinWith_append_singleton (mark : Char) {pieces : List Text} (hne : pieces ≠ [])
    (last : Text) :
    joinWith mark (pieces ++ [last]) = joinWith mark pieces ++ mark :: last := by
  induction pieces with
  | nil => exact absurd rfl hne
  | cons piece rest ih =>
      cases rest with
      | nil => rfl
      | cons next more =>
          have hrest := ih (List.cons_ne_nil _ _)
          simp only [List.cons_append] at hrest ⊢
          simp [joinWith, hrest]

theorem joinWith_append_replicate (mark : Char) {pieces : List Text} (hne : pieces ≠ [])
    (count : Nat) :
    joinWith mark (pieces ++ List.replicate count []) =
      joinWith mark pieces ++ List.replicate count mark := by
  induction count with
  | zero => simp
  | succ count ih =>
      rw [List.replicate_succ', ← List.append_assoc,
        joinWith_append_singleton mark (by simp [hne]), ih, List.append_assoc,
        List.replicate_succ']

theorem mem_of_mem_joinWith {mark c : Char} {pieces : List Text}
    (hc : c ∈ joinWith mark pieces) (hmark : c ≠ mark) : ∃ piece ∈ pieces, c ∈ piece := by
  induction pieces with
  | nil => cases hc
  | cons first rest ih =>
      cases rest with
      | nil => exact ⟨first, List.mem_cons_self, hc⟩
      | cons next more =>
          rw [joinWith, List.mem_append, List.mem_cons] at hc
          rcases hc with hfirst | heq | hrest
          · exact ⟨first, List.mem_cons_self, hfirst⟩
          · exact absurd heq hmark
          · obtain ⟨piece, hpiece, hmem⟩ := ih hrest
            exact ⟨piece, List.mem_cons_of_mem _ hpiece, hmem⟩

theorem mem_joinWith {mark c : Char} {piece : Text} {pieces : List Text}
    (hpiece : piece ∈ pieces) (hc : c ∈ piece) : c ∈ joinWith mark pieces := by
  induction pieces with
  | nil => cases hpiece
  | cons first rest ih =>
      cases rest with
      | nil =>
          obtain rfl : piece = first := by simpa using hpiece
          exact hc
      | cons next more =>
          rw [joinWith, List.mem_append, List.mem_cons]
          rcases List.mem_cons.mp hpiece with rfl | hrest
          · exact .inl hc
          · exact .inr (.inr (ih hrest))

theorem trim_cons_blank {c : Char} (hc : isBlank c = true) (text : Text) :
    trim (c :: text) = trim text := by
  simp [trim, trimStart, hc]

theorem head?_dropWhile_false {α : Type} {p : α → Bool} {items : List α} {item : α}
    (h : (items.dropWhile p).head? = some item) : p item = false := by
  have := List.head?_dropWhile_not p items
  rw [h] at this
  simpa using this

private theorem trimEnd_eq_rdropWhile (text : Text) : trimEnd text = text.rdropWhile isBlank := rfl

/-- A trimmed text does not end in a blank. -/
theorem isBlank_of_getLast?_trim {text : Text} {c : Char}
    (h : (trim text).getLast? = some c) : isBlank c = false := by
  rw [trim, trimEnd, List.getLast?_reverse] at h
  exact head?_dropWhile_false h

/-- What a text begins with stays its beginning when it is no blank. -/
theorem trim_cons_of_not_blank {c : Char} (hc : isBlank c = false) (text : Text) :
    trim (c :: text) = c :: trimEnd text := by
  have hstart : trimStart (c :: text) = c :: text := by simp [trimStart, hc]
  rw [trim, hstart, trimEnd_eq_rdropWhile, trimEnd_eq_rdropWhile]
  clear hstart
  induction text using List.reverseRecOn with
  | nil => simp [List.rdropWhile, hc]
  | append_singleton front last ih =>
      by_cases hlast : isBlank last = true
      · rw [← List.cons_append, List.rdropWhile_concat_pos _ _ _ hlast,
          List.rdropWhile_concat_pos _ _ _ hlast, ih]
      · rw [← List.cons_append, List.rdropWhile_concat_neg _ _ _ hlast,
          List.rdropWhile_concat_neg _ _ _ hlast]
        rfl

theorem mem_of_mem_trim {c : Char} {text : Text} (h : c ∈ trim text) : c ∈ text := by
  have hend : trim text <+: trimStart text := List.rdropWhile_prefix _ _
  have hstart : trimStart text <:+ text := List.dropWhile_suffix _
  exact hstart.subset (hend.subset h)

/-- Trimming takes only blanks away. -/
theorem mem_trim_of_mem {c : Char} {text : Text} (h : c ∈ text) (hc : isBlank c = false) :
    c ∈ trim text := by
  have hstart : c ∈ trimStart text := by
    rw [← List.takeWhile_append_dropWhile (p := isBlank) (l := text)] at h
    rcases List.mem_append.mp h with hblank | hrest
    · rw [List.mem_takeWhile_imp hblank] at hc
      cases hc
    · exact hrest
  rw [← List.rdropWhile_append_rtakeWhile (p := isBlank) (l := trimStart text)] at hstart
  rcases List.mem_append.mp hstart with hrest | hblank
  · exact hrest
  · rw [List.mem_rtakeWhile_imp hblank] at hc
    cases hc

theorem trim_trim (text : Text) : trim (trim text) = trim text := by
  have hend (text : Text) : trimEnd (trimEnd text) = trimEnd text := by
    simp only [trimEnd_eq_rdropWhile, List.rdropWhile_idempotent]
  induction text with
  | nil => rfl
  | cons c rest ih =>
      by_cases hc : isBlank c = true
      · rw [trim_cons_blank hc, ih]
      · have hfilled : isBlank c = false := Bool.eq_false_iff.mpr hc
        rw [trim_cons_of_not_blank hfilled, trim_cons_of_not_blank hfilled, hend]

private theorem trimEnd_append_blank {c : Char} (hc : isBlank c = true) (text : Text) :
    trimEnd (text ++ [c]) = trimEnd text := by
  rw [trimEnd_eq_rdropWhile, List.rdropWhile_concat_pos _ _ _ hc, trimEnd_eq_rdropWhile]

theorem trim_append_blank {c : Char} (hc : isBlank c = true) (text : Text) :
    trim (text ++ [c]) = trim text := by
  induction text with
  | nil => rw [List.nil_append, trim_cons_blank hc]
  | cons first rest ih =>
      rw [List.cons_append]
      by_cases hfirst : isBlank first = true
      · rw [trim_cons_blank hfirst, trim_cons_blank hfirst, ih]
      · have hfilled : isBlank first = false := Bool.eq_false_iff.mpr hfirst
        rw [trim_cons_of_not_blank hfilled, trim_cons_of_not_blank hfilled,
          trimEnd_append_blank hc]

theorem trim_trimEnd (text : Text) : trim (trimEnd text) = trim text := by
  induction text using List.reverseRecOn with
  | nil => rfl
  | append_singleton front last ih =>
      by_cases hlast : isBlank last = true
      · rw [trimEnd_append_blank hlast, trim_append_blank hlast, ih]
      · rw [trimEnd_eq_rdropWhile, List.rdropWhile_concat_neg _ _ _ hlast]

/-- A blank and a mark behind a text that is not blank. The mark stays, and without it
the text is trimmed as before. -/
theorem trim_append_mark {mark : Char} (hmark : isBlank mark = false) {text : Text}
    (htext : trim text ≠ []) :
    ∃ front, trim (text ++ [' ', mark]) = front ++ [mark] ∧ trim front = trim text := by
  induction text with
  | nil => exact absurd rfl htext
  | cons c rest ih =>
      by_cases hc : isBlank c = true
      · rw [trim_cons_blank hc] at htext ⊢
        rw [List.cons_append, trim_cons_blank hc]
        exact ih htext
      · have hfilled : isBlank c = false := Bool.eq_false_iff.mpr hc
        refine ⟨c :: rest ++ [' '], ?_, ?_⟩
        · have hkept : (rest ++ [' ', mark]).rdropWhile isBlank = rest ++ [' ', mark] := by
            rw [List.append_cons, List.rdropWhile_concat_neg _ _ _ (by simp [hmark])]
          rw [List.cons_append, trim_cons_of_not_blank hfilled, trimEnd_eq_rdropWhile, hkept]
          simp
        · rw [List.cons_append, trim_cons_of_not_blank hfilled,
            trimEnd_append_blank isBlank_space, trim_cons_of_not_blank hfilled]

theorem allBlank_iff {text : Text} :
    allBlank text = true ↔ ∀ c ∈ text, isBlank c = true := by
  simp [allBlank]

theorem trim_append_of_blank {blanks : Text} (h : allBlank blanks = true) (text : Text) :
    trim (blanks ++ text) = trim text := by
  have hblank := allBlank_iff.mp h
  clear h
  induction blanks with
  | nil => rfl
  | cons c rest ih =>
      rw [List.cons_append, trim_cons_blank (hblank c List.mem_cons_self)]
      exact ih fun other hother => hblank other (List.mem_cons_of_mem _ hother)

theorem trim_eq_nil_iff {text : Text} : trim text = [] ↔ allBlank text = true := by
  rw [allBlank_iff]
  induction text with
  | nil => simp [trim, trimStart, trimEnd]
  | cons c rest ih =>
      by_cases hc : isBlank c = true
      · simp [trim_cons_blank hc, ih, hc]
      · simp [trim_cons_of_not_blank (Bool.eq_false_iff.mpr hc), hc]

end LineShell.Text
