import LineShell.CommandLine
import LineShell.Proofs.LinkedRow
import LineShell.Proofs.TextPieces

/-!
The command of one piece of a line. The commands that a line can be made of are
written down by their form, in four classes: those that lines come from, those
that turn lines into lines, those that stand alone, and redirects. A trimmed
text is made into a verb exactly when it has one of these forms, and the form
fixes the verb.
-/

namespace LineShell.CommandLine

/-- A command that lines come from. -/
inductive SourceCommand (directory : Text) (tree : FileTree) : Text → Verb → Prop
  | ls : SourceCommand directory tree "ls".toList .ls
  | pwd : SourceCommand directory tree "pwd".toList .pwd
  | cat {rest : Text} (file : tree.isFile (Path.resolve directory (Text.trim rest)) = true) :
      SourceCommand directory tree ("cat".toList ++ ' ' :: rest)
        (.cat (Path.resolve directory (Text.trim rest)))

/-- A command that turns lines into lines. -/
inductive FilterCommand : Text → Verb → Prop
  | uniq : FilterCommand "uniq".toList .uniq
  | wc : FilterCommand "wc".toList .wc
  | head : FilterCommand "head".toList .head
  | tail : FilterCommand "tail".toList .tail
  | grep (rest : Text) : FilterCommand ("grep".toList ++ ' ' :: rest) (.grep (Text.trim rest))

/-- A command that stands alone. -/
inductive SolitaryCommand (directory : Text) (tree : FileTree) : Text → Verb → Prop
  | exit : SolitaryCommand directory tree "exit".toList .exit
  | stay {rest : Text} (target : Text.trim rest = Path.here) :
      SolitaryCommand directory tree ("cd".toList ++ ' ' :: rest) (.cd .stay)
  | up {rest : Text} (target : Text.trim rest = Path.above) :
      SolitaryCommand directory tree ("cd".toList ++ ' ' :: rest) (.cd .up)
  | into {rest : Text} (other : Text.trim rest ≠ Path.here ∧ Text.trim rest ≠ Path.above)
      (found : tree.isDirectory (Path.resolve directory (Text.trim rest)) = true) :
      SolitaryCommand directory tree ("cd".toList ++ ' ' :: rest)
        (.cd (.to (Path.resolve directory (Text.trim rest))))

/-- A redirect that stands as a command of its own. -/
def RedirectCommand (directory command : Text) (verb : Verb) : Prop :=
  ∃ rest, command = ">".toList ++ ' ' :: rest ∧
    verb = .redirect (Path.resolve directory (Text.trim rest))

theorem argument_eq_ok_iff {command argument : Text} :
    CommandLine.argument command = .ok argument ↔
      ∃ word rest, command = word ++ ' ' :: rest ∧ ' ' ∉ word ∧
        Text.trim rest ≠ [] ∧ argument = Text.trim rest := by
  constructor
  · intro h
    unfold CommandLine.argument at h
    split at h
    · rename_i word after hcut
      obtain ⟨hcommand, hspace, hfree⟩ := Text.cutFirst_eq_some hcut
      obtain ⟨rest, rfl⟩ : ∃ rest, after = ' ' :: rest := by
        cases after with
        | nil => cases hspace
        | cons c rest => exact ⟨rest, by simpa using hspace⟩
      have htrim := Text.trim_cons_blank Text.isBlank_space rest
      split at h
      · cases h
      · rename_i hblank
        refine ⟨word, rest, hcommand, hfree, ?_, ?_⟩
        · rw [← htrim]
          exact fun hnil => hblank (Text.trim_eq_nil_iff.mp hnil)
        · rw [← htrim]
          exact (Except.ok.inj h).symm
    · cases h
  · rintro ⟨word, rest, rfl, hfree, hgiven, rfl⟩
    have htrim := Text.trim_cons_blank Text.isBlank_space rest
    have hblank : Text.allBlank (' ' :: rest) = false := by
      rw [Bool.eq_false_iff]
      intro hall
      exact hgiven (htrim ▸ Text.trim_eq_nil_iff.mpr hall)
    simp [CommandLine.argument, Text.cutFirst_append hfree, hblank, htrim]

theorem argument_of_spaced {command word rest : Text} (hword : ' ' ∉ word)
    (hcommand : command = word ++ ' ' :: rest)
    (htrimmed : ∀ c, command.getLast? = some c → Text.isBlank c = false) :
    argument command = .ok (Text.trim rest) := by
  refine argument_eq_ok_iff.mpr ⟨word, rest, hcommand, hword, ?_, rfl⟩
  intro hnil
  have hblank : ∀ c ∈ ' ' :: rest, Text.isBlank c = true := by
    intro c hc
    rcases List.mem_cons.mp hc with rfl | hc
    · exact Text.isBlank_space
    · exact Text.allBlank_iff.mp (Text.trim_eq_nil_iff.mp hnil) c hc
  obtain ⟨c, hc⟩ : ∃ c, (' ' :: rest).getLast? = some c := by
    rw [← Option.isSome_iff_exists]
    simp
  have hlast : command.getLast? = some c := by
    rw [hcommand, List.getLast?_append, hc]
    rfl
  have := htrimmed c hlast
  rw [hblank c (List.mem_of_getLast? hc)] at this
  cases this

private theorem argument_of_unspaced {command : Text} (hcommand : ' ' ∉ command) :
    argument command = .error (.requiresParameter command) := by
  simp [argument, Text.cutFirst_eq_none.mpr hcommand]

private theorem hasWord_spaced {word keyword : Text} (hword : ' ' ∉ word) (hkeyword : ' ' ∉ keyword)
    (rest : Text) : hasWord (word ++ ' ' :: rest) keyword = decide (word = keyword) := by
  have hne : word ++ ' ' :: rest ≠ keyword := by
    rintro rfl
    exact hkeyword (by simp)
  have hiff : keyword ++ [' '] <+: word ++ ' ' :: rest ↔ word = keyword := by
    constructor
    · rintro ⟨more, hmore⟩
      have hcut := congrArg (Text.cutFirst ' ') hmore
      rw [List.append_assoc, Text.cutFirst_append hword, List.singleton_append,
        Text.cutFirst_append hkeyword] at hcut
      simp only [Option.some.injEq, Prod.mk.injEq] at hcut
      exact hcut.1.symm
    · rintro rfl
      exact ⟨rest, by simp⟩
  rw [hasWord, decide_eq_false hne, Bool.false_or, Bool.eq_iff_iff, decide_eq_true_iff,
    List.isPrefixOf_iff_prefix, hiff]

/-- A command with a space in it is told by the word before the first space. -/
theorem makeVerb_spaced {directory word rest : Text} {tree : FileTree} (hword : ' ' ∉ word) :
    makeVerb directory tree (word ++ ' ' :: rest) =
      if word = "cd".toList then makeCd directory tree (word ++ ' ' :: rest)
      else if word = "cat".toList then makeCat directory tree (word ++ ' ' :: rest)
      else if word = "grep".toList then makeGrep (word ++ ' ' :: rest)
      else if word = ">".toList then makeRedirect directory (word ++ ' ' :: rest)
      else .error (.commandNotFound (word ++ ' ' :: rest)) := by
  have hne (keyword : Text) (hkeyword : ' ' ∉ keyword) : word ++ ' ' :: rest ≠ keyword := by
    rintro rfl
    exact hkeyword (by simp)
  unfold makeVerb
  rw [if_neg (hne _ (by decide)), if_neg (hne _ (by decide)), if_neg (hne _ (by decide)),
    if_neg (hne _ (by decide)), if_neg (hne _ (by decide)), if_neg (hne _ (by decide)),
    if_neg (hne _ (by decide)), hasWord_spaced hword (by decide), hasWord_spaced hword (by decide),
    hasWord_spaced hword (by decide), hasWord_spaced hword (by decide)]
  simp only [decide_eq_true_eq]

/-- A command without a space in it has no argument, so it has to be a word that
needs none. -/
theorem command_of_makeVerb_unspaced {directory command : Text} {tree : FileTree} {verb : Verb}
    (hcommand : ' ' ∉ command) (h : makeVerb directory tree command = .ok verb) :
    SourceCommand directory tree command verb ∨ FilterCommand command verb ∨
      SolitaryCommand directory tree command verb := by
  by_cases hpwd : command = "pwd".toList
  · subst hpwd
    change Except.ok Verb.pwd = .ok verb at h
    cases h
    exact .inl .pwd
  by_cases hls : command = "ls".toList
  · subst hls
    change Except.ok Verb.ls = .ok verb at h
    cases h
    exact .inl .ls
  by_cases hwc : command = "wc".toList
  · subst hwc
    change Except.ok Verb.wc = .ok verb at h
    cases h
    exact .inr (.inl .wc)
  by_cases huniq : command = "uniq".toList
  · subst huniq
    change Except.ok Verb.uniq = .ok verb at h
    cases h
    exact .inr (.inl .uniq)
  by_cases hhead : command = "head".toList
  · subst hhead
    change Except.ok Verb.head = .ok verb at h
    cases h
    exact .inr (.inl .head)
  by_cases htail : command = "tail".toList
  · subst htail
    change Except.ok Verb.tail = .ok verb at h
    cases h
    exact .inr (.inl .tail)
  by_cases hexit : command = "exit".toList
  · subst hexit
    change Except.ok Verb.exit = .ok verb at h
    cases h
    exact .inr (.inr .exit)
  have harg := argument_of_unspaced hcommand
  rw [makeVerb, if_neg hpwd, if_neg hls, if_neg hwc, if_neg huniq, if_neg hhead, if_neg htail,
    if_neg hexit] at h
  simp only [makeCd, makeCat, makeGrep, makeRedirect, harg, bind, Except.bind] at h
  repeat' split at h
  all_goals cases h

private theorem command_of_makeVerb_spaced {directory command word rest : Text} {tree : FileTree}
    {verb : Verb} (hword : ' ' ∉ word) (hcommand : command = word ++ ' ' :: rest)
    (htrimmed : ∀ c, command.getLast? = some c → Text.isBlank c = false)
    (h : makeVerb directory tree command = .ok verb) :
    SourceCommand directory tree command verb ∨ FilterCommand command verb ∨
      SolitaryCommand directory tree command verb ∨ RedirectCommand directory command verb := by
  have harg := argument_of_spaced hword hcommand htrimmed
  subst hcommand
  rw [makeVerb_spaced hword] at h
  split at h
  · rename_i hcd
    subst hcd
    simp only [makeCd, harg, bind, Except.bind] at h
    split at h
    · rename_i htarget
      cases h
      exact .inr (.inr (.inl (.stay htarget)))
    split at h
    · rename_i htarget
      cases h
      exact .inr (.inr (.inl (.up htarget)))
    split at h
    · rename_i hhere habove hfound
      cases h
      exact .inr (.inr (.inl (.into ⟨hhere, habove⟩ hfound)))
    · cases h
  split at h
  · rename_i hcat
    subst hcat
    simp only [makeCat, harg, bind, Except.bind] at h
    split at h
    · rename_i hfile
      cases h
      exact .inl (.cat hfile)
    · cases h
  split at h
  · rename_i hgrep
    subst hgrep
    simp only [makeGrep, harg, bind, Except.bind, Except.ok.injEq] at h
    subst h
    exact .inr (.inl (.grep rest))
  split at h
  · rename_i hredirect
    subst hredirect
    simp only [makeRedirect, harg, bind, Except.bind, Except.ok.injEq] at h
    exact .inr (.inr (.inr ⟨rest, rfl, h.symm⟩))
  · cases h

/-- A trimmed command is made exactly when it is one of the commands of a line's
form, or a redirect. -/
theorem makeVerb_eq_ok_iff {directory command : Text} {tree : FileTree} {verb : Verb}
    (htrimmed : ∀ c, command.getLast? = some c → Text.isBlank c = false) :
    makeVerb directory tree command = .ok verb ↔
      SourceCommand directory tree command verb ∨ FilterCommand command verb ∨
        SolitaryCommand directory tree command verb ∨ RedirectCommand directory command verb := by
  constructor
  · intro h
    by_cases hspace : ' ' ∈ command
    · obtain ⟨word, rest, hcommand, hword⟩ := List.eq_append_cons_of_mem hspace
      exact command_of_makeVerb_spaced hword hcommand htrimmed h
    · rcases command_of_makeVerb_unspaced hspace h with h | h | h
      · exact .inl h
      · exact .inr (.inl h)
      · exact .inr (.inr (.inl h))
  · have harg (word rest : Text) (hword : ' ' ∉ word) (h : command = word ++ ' ' :: rest) :=
      argument_of_spaced hword h htrimmed
    rintro (h | h | h | ⟨rest, rfl, rfl⟩)
    · cases h with
      | ls => rfl
      | pwd => rfl
      | cat hfile =>
          rw [makeVerb_spaced (by decide), if_neg (by decide), if_pos rfl]
          simp only [makeCat, harg _ _ (by decide) rfl, bind, Except.bind, hfile, if_true]
    · cases h with
      | uniq => rfl
      | wc => rfl
      | head => rfl
      | tail => rfl
      | grep rest =>
          rw [makeVerb_spaced (by decide), if_neg (by decide), if_neg (by decide), if_pos rfl]
          simp only [makeGrep, harg _ _ (by decide) rfl, bind, Except.bind]
    · cases h with
      | exit => rfl
      | stay htarget =>
          rw [makeVerb_spaced (by decide), if_pos rfl]
          simp only [makeCd, harg _ _ (by decide) rfl, bind, Except.bind, htarget, if_true]
      | up htarget =>
          rw [makeVerb_spaced (by decide), if_pos rfl]
          have hne : Path.above ≠ Path.here := by decide
          simp only [makeCd, harg _ _ (by decide) rfl, bind, Except.bind, htarget, if_neg hne,
            if_true]
      | into hother hfound =>
          rw [makeVerb_spaced (by decide), if_pos rfl]
          simp only [makeCd, harg _ _ (by decide) rfl, bind, Except.bind, if_neg hother.1,
            if_neg hother.2, hfound, if_true]
    · rw [makeVerb_spaced (by decide), if_neg (by decide), if_neg (by decide),
        if_neg (by decide), if_pos rfl]
      simp only [makeRedirect, harg _ _ (by decide) rfl, bind, Except.bind]

/-! The four classes. -/

theorem SourceCommand.isSource {directory command : Text} {tree : FileTree} {verb : Verb}
    (h : SourceCommand directory tree command verb) : verb.isSource = true := by
  cases h <;> rfl

theorem SourceCommand.requiresInput {directory command : Text} {tree : FileTree} {verb : Verb}
    (h : SourceCommand directory tree command verb) : verb.requiresInput = false := by
  cases h <;> rfl

/-- The path of a `cat` leads to a regular file. -/
theorem SourceCommand.isFile_of_cat {directory command path : Text} {tree : FileTree}
    {verb : Verb} (h : SourceCommand directory tree command verb) (hverb : verb = .cat path) :
    tree.isFile path = true := by
  cases h with
  | ls => cases hverb
  | pwd => cases hverb
  | cat hfile =>
      obtain rfl := Verb.cat.inj hverb
      exact hfile

theorem FilterCommand.isFilter {command : Text} {verb : Verb}
    (h : FilterCommand command verb) : verb.isFilter = true := by
  cases h <;> rfl

theorem FilterCommand.requiresInput {command : Text} {verb : Verb}
    (h : FilterCommand command verb) : verb.requiresInput = true := by
  cases h <;> rfl

theorem SolitaryCommand.isSolitary {directory command : Text} {tree : FileTree} {verb : Verb}
    (h : SolitaryCommand directory tree command verb) : verb.isSolitary = true := by
  cases h <;> rfl

theorem SolitaryCommand.requiresInput {directory command : Text} {tree : FileTree}
    {verb : Verb} (h : SolitaryCommand directory tree command verb) :
    verb.requiresInput = false := by
  cases h <;> rfl

theorem RedirectCommand.isSink {directory command : Text} {verb : Verb}
    (h : RedirectCommand directory command verb) : verb.isSink = true := by
  obtain ⟨rest, -, rfl⟩ := h
  rfl

theorem SourceCommand.head?_ne {directory command : Text} {tree : FileTree} {verb : Verb}
    (h : SourceCommand directory tree command verb) : command.head? ≠ some '>' := by
  cases h with
  | ls => decide
  | pwd => decide
  | cat => exact (by decide : some 'c' ≠ some '>')

theorem FilterCommand.head?_ne {command : Text} {verb : Verb}
    (h : FilterCommand command verb) : command.head? ≠ some '>' := by
  cases h with
  | uniq => decide
  | wc => decide
  | head => decide
  | tail => decide
  | grep => exact (by decide : some 'g' ≠ some '>')

theorem SolitaryCommand.head?_ne {directory command : Text} {tree : FileTree} {verb : Verb}
    (h : SolitaryCommand directory tree command verb) : command.head? ≠ some '>' := by
  cases h with
  | exit => decide
  | stay => exact (by decide : some 'c' ≠ some '>')
  | up => exact (by decide : some 'c' ≠ some '>')
  | into => exact (by decide : some 'c' ≠ some '>')

end LineShell.CommandLine
