import LineShell.Proofs.AcceptedLines

/-!
The two places of a line where a redirect may stand: at its end, and among its
commands. What begins with `>` is a redirect at the end of a line if it has a space
anywhere, and its path is what follows that space. Among the commands the space has to
follow the mark at once. So the two places agree on all texts but those with more than
the mark before the first space, of which one place makes a redirect and the other
makes nothing.
-/

namespace LineShell.CommandLine

variable {directory after : Text} {tree : FileTree} {stage : Stage}

/-- The redirect that a text is made into, with a path that is still to be resolved. -/
def redirectTo (directory text path : Text) : Stage :=
  Stage.alone (Text.trim text, .redirect (Path.resolve directory path))

/-! At the end of a line. -/

theorem makeEnding_of_argument {text path : Text} (h : argument (Text.trim text) = .ok path) :
    makeEnding directory (some text) = .ok (redirectTo directory text path) := by
  simp [makeEnding, makeRedirect, h, bind, Except.bind, redirectTo, Stage.alone]

/-- The path follows the first space. -/
theorem makeEnding_eq_ok_iff {text : Text} :
    makeEnding directory (some text) = .ok stage ↔
      ∃ word rest, Text.trim text = word ++ ' ' :: rest ∧ ' ' ∉ word ∧
        stage = redirectTo directory text (Text.trim rest) := by
  constructor
  · intro h
    cases harg : argument (Text.trim text) with
    | error error => simp [makeEnding, makeRedirect, harg, bind, Except.bind] at h
    | ok path =>
        obtain ⟨word, rest, hspaced, hfree, -, rfl⟩ := argument_eq_ok_iff.mp harg
        rw [makeEnding_of_argument harg] at h
        exact ⟨word, rest, hspaced, hfree, (Except.ok.inj h).symm⟩
  · rintro ⟨word, rest, hspaced, hfree, rfl⟩
    exact makeEnding_of_argument
      (argument_of_spaced hfree hspaced fun c => Text.isBlank_of_getLast?_trim)

/-! Among the commands. -/

/-- What is spelled as a redirect is made. -/
theorem makeStage_of_spelled {piece rest : Text} (h : Text.trim piece = ">".toList ++ ' ' :: rest)
    (tree : FileTree) :
    makeStage directory tree piece = .ok (redirectTo directory piece (Text.trim rest)) := by
  refine makeStage_eq_ok_iff.mpr ⟨_, rfl, rfl, ?_⟩
  refine (makeVerb_eq_ok_iff fun c => Text.isBlank_of_getLast?_trim).mpr ?_
  exact .inr (.inr (.inr ⟨rest, h, rfl⟩))

/-- The space follows the mark. -/
theorem makeStage_mark_eq_ok_iff :
    makeStage directory tree ('>' :: after) = .ok stage ↔
      ∃ rest, Text.trim ('>' :: after) = ">".toList ++ ' ' :: rest ∧
        stage = redirectTo directory ('>' :: after) (Text.trim rest) := by
  constructor
  · intro h
    obtain ⟨command, rfl, hmakes⟩ := makeStage_eq_ok_iff.mp h
    obtain ⟨rest, hcommand, hverb⟩ := hmakes.redirect_of_mark
    refine ⟨rest, hmakes.1 ▸ hcommand, ?_⟩
    rw [redirectTo, ← hmakes.1, ← hverb]
  · rintro ⟨rest, hspelled, rfl⟩
    exact makeStage_of_spelled hspelled tree

/-! Both places. -/

/-- All that stands behind the mark is the path when a space follows the mark. -/
theorem trim_of_spelled {rest : Text}
    (h : Text.trim ('>' :: after) = ">".toList ++ ' ' :: rest) :
    Text.trim rest = Text.trim after := by
  rw [Text.trim_cons_of_not_blank (by decide)] at h
  have hend : Text.trimEnd after = ' ' :: rest := (List.cons.inj h).2
  rw [← Text.trim_trimEnd after, hend, Text.trim_cons_blank Text.isBlank_space]

/-- A text that begins with `>` at the end of a line, and as a piece of its own. All that
the commands make a redirect of the ending makes the same redirect of. The ending makes
one of more texts, and that of just those with more than the mark before the first
space. -/
theorem redirect_places (directory after : Text) (tree : FileTree) :
    (∀ user, '>' ∉ after → '|' ∉ after →
      splitEnding (user ++ '>' :: after) = (user, some ('>' :: after))) ∧
    (∀ before, '>' ∉ before → '>' :: after ∈ piecesOfSegment (before ++ '>' :: after)) ∧
    (∀ stage, makeEnding directory (some ('>' :: after)) = .ok stage ↔
      ∃ word rest, Text.trim ('>' :: after) = word ++ ' ' :: rest ∧ ' ' ∉ word ∧
        stage = redirectTo directory ('>' :: after) (Text.trim rest)) ∧
    (∀ stage, makeStage directory tree ('>' :: after) = .ok stage ↔
      ∃ rest, Text.trim ('>' :: after) = ">".toList ++ ' ' :: rest ∧
        stage = redirectTo directory ('>' :: after) (Text.trim after)) ∧
    (∀ stage, makeStage directory tree ('>' :: after) = .ok stage →
      makeEnding directory (some ('>' :: after)) = .ok stage) ∧
    ((∀ stage, makeEnding directory (some ('>' :: after)) = .ok stage →
        makeStage directory tree ('>' :: after) = .ok stage) ↔
      ∀ word rest, Text.trim ('>' :: after) = word ++ ' ' :: rest → ' ' ∉ word →
        word = ">".toList) := by
  have hpiece (stage : Stage) : makeStage directory tree ('>' :: after) = .ok stage ↔
      ∃ rest, Text.trim ('>' :: after) = ">".toList ++ ' ' :: rest ∧
        stage = redirectTo directory ('>' :: after) (Text.trim after) := by
    rw [makeStage_mark_eq_ok_iff]
    refine exists_congr fun rest => and_congr_right fun hspelled => ?_
    rw [trim_of_spelled hspelled]
  refine ⟨?_, ?_, fun _ => makeEnding_eq_ok_iff, hpiece, ?_, ?_, ?_⟩
  · intro user hmark hpipe
    exact splitEnding_of_lastRedirect ⟨rfl, hmark, hpipe⟩
  · intro before hfree
    simp only [piecesOfSegment, Text.cutFirst_append hfree]
    split <;> simp
  · intro stage h
    obtain ⟨rest, hspelled, rfl⟩ := makeStage_mark_eq_ok_iff.mp h
    exact makeEnding_eq_ok_iff.mpr ⟨_, rest, hspelled, by decide, rfl⟩
  · intro hagree word rest hspaced hfree
    have hmade : makeEnding directory (some ('>' :: after)) =
        .ok (redirectTo directory ('>' :: after) (Text.trim rest)) :=
      makeEnding_eq_ok_iff.mpr ⟨word, rest, hspaced, hfree, rfl⟩
    obtain ⟨other, hspelled, -⟩ := (hpiece _).mp (hagree _ hmade)
    -- There is one first space, so the two ways to write the text are the same.
    have hcut := congrArg (Text.cutFirst ' ') (hspaced.symm.trans hspelled)
    rw [Text.cutFirst_append hfree, Text.cutFirst_append (by decide)] at hcut
    exact (Prod.mk.inj (Option.some.inj hcut)).1
  · intro hmark stage h
    obtain ⟨word, rest, hspaced, hfree, rfl⟩ := makeEnding_eq_ok_iff.mp h
    obtain rfl := hmark word rest hspaced hfree
    exact makeStage_of_spelled hspaced tree

/-- The end of a line takes `>a b` for a redirect to `b`. Among the commands there is no
such command. -/
theorem redirect_places_differ :
    makeEnding "/".toList (some ">a b".toList) =
        .ok (redirectTo "/".toList ">a b".toList "b".toList) ∧
      makeStage "/".toList .empty ">a b".toList = .error (.commandNotFound ">a b".toList) := by
  decide +kernel

end LineShell.CommandLine
