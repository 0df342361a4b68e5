import LineShell.Proofs.Removals

/-!
Why a line is refused. A line can be wrong in many ways at once, and what is said of it
is the first that applies: the redirect that ends it has no argument; there is nothing
before that redirect, or only `|`; one of its commands cannot be made, the leftmost of
these in the tree that the redirects before it have left; its first command has nothing
to read from; or two neighbours do not fit, the leftmost two of these. Each of these is
written down here by the form of the line, and a line is refused with an error exactly
when it has the form for it.
-/

namespace LineShell.CommandLine

/-! One command. -/

/-- The words that are commands by themselves. -/
def plainWords : List Text :=
  ["pwd", "ls", "wc", "uniq", "head", "tail", "exit"].map String.toList

/-- The words that are commands with an argument behind them. -/
def takingWords : List Text :=
  ["cd", "cat", "grep", ">"].map String.toList

/-- Why a command that has no blanks at its ends cannot be made in some tree. The error is
about the command. -/
inductive Unmade (directory : Text) (tree : FileTree) : Text → ShellError → Prop
  | bare {word : Text} (taking : word ∈ takingWords) :
      Unmade directory tree word (.requiresParameter word)
  | noFile {rest : Text}
      (missing : tree.isFile (Path.resolve directory (Text.trim rest)) = false) :
      Unmade directory tree ("cat".toList ++ ' ' :: rest)
        (.fileNotFound ("cat".toList ++ ' ' :: rest))
  | noDirectory {rest : Text}
      (other : Text.trim rest ≠ Path.here ∧ Text.trim rest ≠ Path.above)
      (missing : tree.isDirectory (Path.resolve directory (Text.trim rest)) = false) :
      Unmade directory tree ("cd".toList ++ ' ' :: rest)
        (.directoryNotFound ("cd".toList ++ ' ' :: rest))
  | unknown {command : Text} (plain : command ∉ plainWords) (taking : command ∉ takingWords)
      (word : ∀ word ∈ takingWords, ∀ rest, command ≠ word ++ ' ' :: rest) :
      Unmade directory tree command (.commandNotFound command)

private theorem notMem_of_takingWords {word : Text} (h : word ∈ takingWords) : ' ' ∉ word := by
  have hall : ∀ word ∈ takingWords, ' ' ∉ word := by decide
  exact hall word h

private theorem notMem_of_plainWords {word : Text} (h : word ∈ plainWords) : ' ' ∉ word := by
  have hall : ∀ word ∈ plainWords, ' ' ∉ word := by decide
  exact hall word h

variable {directory command piece line : Text} {tree after : FileTree} {error : ShellError}

private theorem argument_eq_error_iff :
    argument command = .error error ↔
      error = .requiresParameter command ∧
        ∀ word rest, command = word ++ ' ' :: rest → ' ' ∉ word → Text.trim rest = [] := by
  cases harg : argument command with
  | ok path =>
      obtain ⟨word, rest, hcommand, hfree, hgiven, -⟩ := argument_eq_ok_iff.mp harg
      simp only [reduceCtorEq, false_iff, not_and]
      exact fun _ hnone => hgiven (hnone word rest hcommand hfree)
  | error other =>
      have hother : other = .requiresParameter command := by
        unfold argument at harg
        split at harg
        · split at harg
          · exact (Except.error.inj harg).symm
          · cases harg
        · exact (Except.error.inj harg).symm
      have hnone : ∀ word rest, command = word ++ ' ' :: rest → ' ' ∉ word →
          Text.trim rest = [] := by
        intro word rest hcommand hfree
        by_contra hgiven
        rw [argument_eq_ok_iff.mpr ⟨word, rest, hcommand, hfree, hgiven, rfl⟩] at harg
        cases harg
      rw [hother, Except.error.injEq]
      exact ⟨fun h => ⟨h.symm, hnone⟩, fun h => h.1.symm⟩

theorem hasWord_iff {word : Text} :
    hasWord command word = true ↔ command = word ∨ ∃ rest, command = word ++ ' ' :: rest := by
  rw [hasWord, Bool.or_eq_true, decide_eq_true_iff, List.isPrefixOf_iff_prefix]
  refine or_congr_right ⟨?_, ?_⟩
  · rintro ⟨rest, hcommand⟩
    exact ⟨rest, by simp [← hcommand]⟩
  · rintro ⟨rest, rfl⟩
    exact ⟨rest, by simp⟩

private theorem makeVerb_of_bare {word : Text} (h : word ∈ takingWords) :
    makeVerb directory tree word = .error (.requiresParameter word) := by
  simp only [takingWords, List.map_cons, List.map_nil, List.mem_cons, List.not_mem_nil,
    or_false] at h
  rcases h with rfl | rfl | rfl | rfl <;> rfl

private theorem makeVerb_of_unknown (hplain : command ∉ plainWords)
    (htaking : command ∉ takingWords)
    (hword : ∀ word ∈ takingWords, ∀ rest, command ≠ word ++ ' ' :: rest) :
    makeVerb directory tree command = .error (.commandNotFound command) := by
  have hnone : ∀ word ∈ takingWords, hasWord command word = false := by
    intro word hmem
    rw [Bool.eq_false_iff, Ne, hasWord_iff]
    rintro (rfl | ⟨rest, hcommand⟩)
    · exact htaking hmem
    · exact hword word hmem rest hcommand
  simp only [takingWords, plainWords, List.map_cons, List.map_nil, List.mem_cons,
    List.not_mem_nil, or_false, not_or, forall_eq_or_imp, forall_eq] at hplain hnone
  obtain ⟨hpwd, hls, hwc, huniq, hhead, htail, hexit⟩ := hplain
  obtain ⟨hcd, hcat, hgrep, hredirect⟩ := hnone
  simp only [makeVerb, hpwd, hls, hwc, huniq, hhead, htail, hexit, hcd, hcat, hgrep, hredirect,
    if_false, Bool.false_eq_true]

/-- A command that has an argument is refused for what is missing in the tree, or because
there is no such command. -/
theorem unmade_of_spaced {word rest : Text} (hword : ' ' ∉ word)
    (htrimmed : ∀ c, (word ++ ' ' :: rest).getLast? = some c → Text.isBlank c = false)
    (h : makeVerb directory tree (word ++ ' ' :: rest) = .error error) :
    Unmade directory tree (word ++ ' ' :: rest) error := by
  have harg := argument_of_spaced hword rfl htrimmed
  rw [makeVerb_spaced hword] at h
  split at h
  · rename_i hcd
    subst hcd
    simp only [makeCd, harg, bind, Except.bind] at h
    split at h
    · cases h
    split at h
    · cases h
    split at h
    · cases h
    · rename_i hhere habove hmissing
      cases h
      exact .noDirectory ⟨hhere, habove⟩ (by simpa using hmissing)
  rename_i hcd
  split at h
  · rename_i hcat
    subst hcat
    simp only [makeCat, harg, bind, Except.bind] at h
    split at h
    · cases h
    · rename_i hmissing
      cases h
      exact .noFile (by simpa using hmissing)
  rename_i hcat
  split at h
  · simp only [makeGrep, harg, bind, Except.bind, reduceCtorEq] at h
  rename_i hgrep
  split at h
  · simp only [makeRedirect, harg, bind, Except.bind, reduceCtorEq] at h
  rename_i hredirect
  cases h
  have hspace : ' ' ∈ word ++ ' ' :: rest := by simp
  refine .unknown (fun hmem => notMem_of_plainWords hmem hspace)
    (fun hmem => notMem_of_takingWords hmem hspace) ?_
  intro other hother more hsame
  -- There is one first space, so the two ways to write the command are the same.
  have hcut := congrArg (Text.cutFirst ' ') hsame
  rw [Text.cutFirst_append hword, Text.cutFirst_append (notMem_of_takingWords hother)] at hcut
  obtain rfl : word = other := (Prod.mk.inj (Option.some.inj hcut)).1
  simp only [takingWords, List.map_cons, List.map_nil, List.mem_cons, List.not_mem_nil,
    or_false] at hother
  rcases hother with h | h | h | h
  · exact hcd h
  · exact hcat h
  · exact hgrep h
  · exact hredirect h

/-- A command without an argument is refused because it lacks one, or because there is no
such command. -/
theorem unmade_of_unspaced (hcommand : ' ' ∉ command)
    (h : makeVerb directory tree command = .error error) :
    Unmade directory tree command error := by
  by_cases htaking : command ∈ takingWords
  · rw [makeVerb_of_bare htaking] at h
    exact Except.error.inj h ▸ .bare htaking
  by_cases hplain : command ∈ plainWords
  · simp only [plainWords, List.map_cons, List.map_nil, List.mem_cons, List.not_mem_nil,
      or_false] at hplain
    rcases hplain with rfl | rfl | rfl | rfl | rfl | rfl | rfl <;> cases h
  have hword : ∀ word ∈ takingWords, ∀ rest, command ≠ word ++ ' ' :: rest := by
    rintro word - rest rfl
    exact hcommand (by simp)
  rw [makeVerb_of_unknown hplain htaking hword] at h
  exact Except.error.inj h ▸ .unknown hplain htaking hword

private theorem makeVerb_eq_error_iff
    (htrimmed : ∀ c, command.getLast? = some c → Text.isBlank c = false) :
    makeVerb directory tree command = .error error ↔ Unmade directory tree command error := by
  constructor
  · intro h
    by_cases hspace : ' ' ∈ command
    · obtain ⟨word, rest, rfl, hword⟩ := List.eq_append_cons_of_mem hspace
      exact unmade_of_spaced hword htrimmed h
    · exact unmade_of_unspaced hspace h
  · intro h
    cases h with
    | bare htaking => exact makeVerb_of_bare htaking
    | noFile hmissing =>
        have harg := argument_of_spaced (by decide) rfl htrimmed
        rw [makeVerb_spaced (by decide), if_neg (by decide), if_pos rfl]
        simp only [makeCat, harg, bind, Except.bind, hmissing, Bool.false_eq_true, if_false]
    | noDirectory hother hmissing =>
        have harg := argument_of_spaced (by decide) rfl htrimmed
        rw [makeVerb_spaced (by decide), if_pos rfl]
        simp only [makeCd, harg, bind, Except.bind, if_neg hother.1, if_neg hother.2, hmissing,
          Bool.false_eq_true, if_false]
    | unknown hplain htaking hword => exact makeVerb_of_unknown hplain htaking hword

/-! The commands of a line. -/

/-- A command that is no redirect. -/
def PlainCommand (directory : Text) (tree : FileTree) (command : Text) (verb : Verb) : Prop :=
  SourceCommand directory tree command verb ∨ FilterCommand command verb ∨
    SolitaryCommand directory tree command verb

/-- Some pieces of a line that can be made one after the other, the commands that they
are, and the tree that is left. Each of them finds the tree as the redirects before it
have left it. -/
inductive Made (directory : Text) :
    FileTree → List Text → List (Text × Verb) → FileTree → Prop
  | done (tree : FileTree) : Made directory tree [] [] tree
  | plain {tree after : FileTree} {piece : Text} {verb : Verb} {rest : List Text}
      {commands : List (Text × Verb)}
      (command : PlainCommand directory tree (Text.trim piece) verb)
      (more : Made directory tree rest commands after) :
      Made directory tree (piece :: rest) ((Text.trim piece, verb) :: commands) after
  | redirect {tree cleared after : FileTree} {piece argument : Text} {rest : List Text}
      {commands : List (Text × Verb)} (spelled : Text.trim piece = ">".toList ++ ' ' :: argument)
      (removal : Removal tree (Path.resolve directory (Text.trim argument)) cleared)
      (more : Made directory cleared rest commands after) :
      Made directory tree (piece :: rest)
        ((Text.trim piece, .redirect (Path.resolve directory (Text.trim argument))) :: commands)
        after

/-- The leftmost of some pieces that cannot be made, in the tree that the ones before it
have left. -/
def FirstUnmade (directory : Text) (tree : FileTree) (pieces : List Text) (error : ShellError)
    (left : FileTree) : Prop :=
  ∃ earlier piece later commands, pieces = earlier ++ piece :: later ∧
    Made directory tree earlier commands left ∧ Unmade directory left (Text.trim piece) error

private theorem makeStage_eq_error_iff :
    makeStage directory tree piece = .error error ↔
      Unmade directory tree (Text.trim piece) error := by
  rw [← makeVerb_eq_error_iff fun c => Text.isBlank_of_getLast?_trim]
  cases hverb : makeVerb directory tree (Text.trim piece) <;>
    simp [makeStage, bind, Except.bind, hverb]

private theorem PlainCommand.clearFor_eq {verb : Verb}
    (h : PlainCommand directory tree command verb) :
    clearFor tree verb = tree := by
  rcases h with h | h | h <;> cases h <;> rfl

private theorem makeStages_of_made {pieces : List Text} {commands : List (Text × Verb)}
    (h : Made directory tree pieces commands after) :
    makeStages directory tree pieces = (after, .ok (commands.map Stage.alone)) := by
  induction h with
  | done tree => rfl
  | plain hcommand _ ih =>
      have hstage := makeStage_eq_ok_iff.mpr ⟨_, rfl, makes_of_class hcommand⟩
      simp only [makeStages, hstage, Stage.alone, hcommand.clearFor_eq, ih, Except.map,
        List.map_cons]
  | redirect hspelled hremoval _ ih =>
      simp only [makeStages, makeStage_of_spelled hspelled, redirectTo, Stage.alone,
        removal_iff.mp hremoval, ih, Except.map, List.map_cons]

/-- A piece that can be made comes before those that are made in the tree that it
leaves. -/
theorem Made.cons {stage : Stage} {rest : List Text} {commands : List (Text × Verb)}
    (hstage : makeStage directory tree piece = .ok stage)
    (hrest : Made directory (clearFor tree stage.verb) rest commands after) :
    Made directory tree (piece :: rest) ((stage.command, stage.verb) :: commands) after := by
  obtain ⟨command, rfl, hmakes⟩ := makeStage_eq_ok_iff.mp hstage
  obtain ⟨name, verb⟩ := command
  obtain rfl : name = Text.trim piece := hmakes.1
  have hplain (hclass : PlainCommand directory tree (Text.trim piece) verb) :
      Made directory tree (piece :: rest) ((Text.trim piece, verb) :: commands) after :=
    .plain hclass (hclass.clearFor_eq ▸ hrest)
  rcases hmakes.class with hclass | hclass | hclass | ⟨argument, hspelled, hverb⟩
  · exact hplain (.inl hclass)
  · exact hplain (.inr (.inl hclass))
  · exact hplain (.inr (.inr hclass))
  · obtain rfl : verb = _ := hverb
    exact .redirect hspelled (removal_iff.mpr rfl) hrest

/-- Some pieces can all be made, or there is a leftmost one that cannot. -/
theorem made_or_firstUnmade (directory : Text) (tree : FileTree) (pieces : List Text) :
    (∃ commands after, Made directory tree pieces commands after) ∨
      ∃ error left, FirstUnmade directory tree pieces error left := by
  induction pieces generalizing tree with
  | nil => exact .inl ⟨[], tree, .done tree⟩
  | cons piece rest ih =>
      cases hstage : makeStage directory tree piece with
      | error error =>
          exact .inr ⟨error, tree, [], piece, rest, [], rfl, .done tree,
            makeStage_eq_error_iff.mp hstage⟩
      | ok stage =>
          rcases ih (clearFor tree stage.verb) with
            ⟨commands, after, hmade⟩ |
              ⟨error, left, earlier, other, later, commands, rfl, hmade, hnot⟩
          · exact .inl ⟨_, after, .cons hstage hmade⟩
          · exact .inr ⟨error, left, piece :: earlier, other, later, _, rfl, .cons hstage hmade,
              hnot⟩

private theorem makeStages_of_firstUnmade {pieces : List Text}
    (h : FirstUnmade directory tree pieces error after) :
    makeStages directory tree pieces = (after, .error error) := by
  obtain ⟨earlier, piece, later, commands, rfl, hmade, hnot⟩ := h
  have hstage := makeStage_eq_error_iff.mpr hnot
  clear hnot
  induction hmade with
  | done tree => simp only [List.nil_append, makeStages, hstage]
  | plain hcommand _ ih =>
      have hfirst := makeStage_eq_ok_iff.mpr ⟨_, rfl, makes_of_class hcommand⟩
      simp only [List.cons_append, makeStages, hfirst, Stage.alone, hcommand.clearFor_eq,
        ih hstage, Except.map]
  | redirect hspelled hremoval _ ih =>
      simp only [List.cons_append, makeStages, makeStage_of_spelled hspelled, redirectTo,
        Stage.alone, removal_iff.mp hremoval, ih hstage, Except.map]

/-! A whole line. -/

/-- The commands of a line with the one that ends it. Behind a command that stands alone
nothing is printed. -/
def endedBy (last : Text × Verb) (commands : List (Text × Verb)) : List (Text × Verb) :=
  if last.2 = .print ∧ commands.getLast?.any (fun command => command.2.isSolitary) = true
  then commands else commands ++ [last]

/-- A command that cannot be the first of a line, for it has nothing to read from
there. -/
def Reads (directory : Text) (command : Text × Verb) : Prop :=
  FilterCommand command.1 command.2 ∨ RedirectCommand directory command.1 command.2

/-- The lines that are refused, each with the error for it. A line has an ending unless
its redirect lacks an argument, and its other faults are looked for in the text that the
ending leaves, and in the tree that it leaves. -/
inductive Refused (directory : Text) (tree : FileTree) (line : Text) : ShellError → Prop
  | bare {user after : Text} (found : LastRedirect line user after)
      (bare : ∀ word rest, Text.trim ('>' :: after) = word ++ ' ' :: rest → ' ' ∉ word →
        Text.trim rest = []) :
      Refused directory tree line (.requiresParameter (Text.trim ('>' :: after)))
  | blank {user : Text} {cleared : FileTree} {last : Text × Verb}
      (ending : Ending directory tree line user cleared last) (blank : Text.trim user = []) :
      Refused directory tree line (.requiresInput (Text.trim line))
  | marks {user : Text} {cleared : FileTree} {last : Text × Verb}
      (ending : Ending directory tree line user cleared last) (filled : Text.trim user ≠ [])
      (marks : ∀ c ∈ user, c = '|') :
      Refused directory tree line (.commandNotFound (Text.trim line))
  | unmade {user : Text} {cleared left : FileTree} {last : Text × Verb} {error : ShellError}
      (ending : Ending directory tree line user cleared last) (filled : Text.trim user ≠ [])
      (first : FirstUnmade directory cleared (pieces user) error left) :
      Refused directory tree line error
  | headless {user : Text} {cleared left : FileTree} {first last : Text × Verb}
      {rest : List (Text × Verb)} (ending : Ending directory tree line user cleared last)
      (filled : Text.trim user ≠ [])
      (made : Made directory cleared (pieces user) (first :: rest) left)
      (reads : Reads directory first) :
      Refused directory tree line (.requiresInput first.1)
  | unfit {user : Text} {cleared left : FileTree} {first last : Text × Verb}
      {rest : List (Text × Verb)} {error : ShellError}
      (ending : Ending directory tree line user cleared last) (filled : Text.trim user ≠ [])
      (made : Made directory cleared (pieces user) (first :: rest) left)
      (leads : ¬ Reads directory first)
      (first_unfit : Stage.FirstUnfit (endedBy last (first :: rest)) error) :
      Refused directory tree line error

theorem piecesOfSegment_ne_nil (segment : Text) : piecesOfSegment segment ≠ [] := by
  unfold piecesOfSegment
  split
  · split <;> simp
  · simp

theorem pieces_eq_nil_iff {text : Text} : pieces text = [] ↔ ∀ c ∈ text, c = '|' := by
  have hsegments : pieces text = [] ↔ segments text = [] := by
    simp only [pieces, List.flatMap_eq_nil_iff, piecesOfSegment_ne_nil, imp_false,
      ← List.eq_nil_iff_forall_not_mem]
  rw [hsegments]
  constructor
  · intro hnone
    obtain ⟨count, hsplit⟩ := split_eq_segments_append text
    rw [hnone, List.nil_append] at hsplit
    have htext := Text.joinWith_split '|' text
    rw [hsplit] at htext
    intro c hc
    cases count with
    | zero => simp [← htext, Text.joinWith] at hc
    | succ count =>
        have hjoin := Text.joinWith_append_replicate '|' (List.cons_ne_nil ([] : Text) []) count
        rw [List.replicate_succ, ← List.singleton_append, hjoin] at htext
        rw [← htext] at hc
        exact (List.mem_replicate.mp (by simpa [Text.joinWith] using hc)).2
  · intro hmarks
    rw [segments_eq_rdropWhile, List.eq_replicate_of_mem hmarks, Text.split_replicate,
      List.rdropWhile_eq_nil_iff]
    intro segment hsegment
    rw [(List.mem_replicate.mp hsegment).2]
    rfl

variable {user : Text} {cleared left : FileTree} {first last : Text × Verb}
  {rest : List (Text × Verb)}

/-- A line ends in a redirect without an argument, or it has an ending. -/
theorem bare_or_ending (directory : Text) (tree : FileTree) (line : Text) :
    (∃ user after, LastRedirect line user after ∧
      ∀ word rest, Text.trim ('>' :: after) = word ++ ' ' :: rest → ' ' ∉ word →
        Text.trim rest = []) ∨
    ∃ user cleared last, Ending directory tree line user cleared last := by
  by_cases hfound : ∃ user after, LastRedirect line user after
  · obtain ⟨user, after, hfound⟩ := hfound
    cases harg : argument (Text.trim ('>' :: after)) with
    | error error => exact .inl ⟨user, after, hfound, (argument_eq_error_iff.mp harg).2⟩
    | ok path =>
        obtain ⟨word, rest, hspaced, hfree, hgiven, -⟩ := argument_eq_ok_iff.mp harg
        exact .inr ⟨_, _, _, .redirect hfound hspaced hfree hgiven⟩
  · exact .inr ⟨_, _, _, .print hfound⟩

private theorem build_of_bare_redirect {after : Text} (hfound : LastRedirect line user after)
    (hbare : ∀ word rest, Text.trim ('>' :: after) = word ++ ' ' :: rest → ' ' ∉ word →
      Text.trim rest = []) :
    (build directory tree line).2 = .error (.requiresParameter (Text.trim ('>' :: after))) := by
  have harg := argument_eq_error_iff.mpr ⟨rfl, hbare⟩
  simp [build, splitEnding_of_lastRedirect hfound, makeEnding, makeRedirect, harg, bind,
    Except.bind]

private theorem build_of_blank (hending : Ending directory tree line user cleared last)
    (hblank : Text.trim user = []) :
    (build directory tree line).2 = .error (.requiresInput (Text.trim line)) := by
  obtain ⟨huser, -, hmade⟩ := hending.made
  simp [build, huser, hmade, Text.trim_eq_nil_iff.mp hblank]

/-- Once there is an ending and something before it, it is left to the pieces of a line
what is said of it. -/
theorem build_of_filled (hending : Ending directory tree line user cleared last)
    (hfilled : Text.trim user ≠ []) :
    (build directory tree line).2 =
      match pieces user with
      | [] => .error (.commandNotFound (Text.trim line))
      | piece :: more =>
        (makeStages directory cleared (piece :: more)).2.bind fun stages =>
          (linkStages piece (withEnding stages (Stage.alone last))).map fun linked =>
            { command := Text.trim line, stages := linked } := by
  obtain ⟨huser, rfl, hmade⟩ := hending.made
  have hblank : Text.allBlank user = false :=
    Bool.eq_false_iff.mpr fun h => hfilled (Text.trim_eq_nil_iff.mpr h)
  have hcleared : clearFor tree (Stage.alone last).verb = clearFor tree last.2 := rfl
  simp only [build, huser, hmade, hblank, Bool.false_eq_true, if_false, hcleared]
  cases pieces user with
  | nil => rfl
  | cons piece more =>
      rcases hstages : makeStages directory (clearFor tree last.2) (piece :: more) with
        ⟨left, error | stages⟩
      · simp only [hstages, Except.bind]
      · simp only [hstages, Except.bind]
        cases linkStages piece (withEnding stages (Stage.alone last)) <;> rfl

private theorem build_of_marks (hending : Ending directory tree line user cleared last)
    (hfilled : Text.trim user ≠ []) (hmarks : ∀ c ∈ user, c = '|') :
    (build directory tree line).2 = .error (.commandNotFound (Text.trim line)) := by
  rw [build_of_filled hending hfilled, pieces_eq_nil_iff.mpr hmarks]

private theorem build_of_unmade (hending : Ending directory tree line user cleared last)
    (hfilled : Text.trim user ≠ [])
    (hunmade : FirstUnmade directory cleared (pieces user) error left) :
    (build directory tree line).2 = .error error := by
  rw [build_of_filled hending hfilled]
  cases hpieces : pieces user with
  | nil =>
      obtain ⟨earlier, piece, later, -, hnone, -⟩ := hunmade
      simp [hpieces] at hnone
  | cons piece more =>
      rw [hpieces] at hunmade
      simp only [makeStages_of_firstUnmade hunmade]
      rfl

private theorem endedBy_cons (last first : Text × Verb) (rest : List (Text × Verb)) :
    ∃ more, endedBy last (first :: rest) = first :: more := by
  unfold endedBy
  split
  · exact ⟨rest, rfl⟩
  · exact ⟨rest ++ [last], rfl⟩

/-- Once all its commands have been made, a line is refused if the first of them reads
something, or if they do not fit. -/
theorem build_of_made (hending : Ending directory tree line user cleared last)
    (hfilled : Text.trim user ≠ [])
    (hmade : Made directory cleared (pieces user) (first :: rest) left) :
    (build directory tree line).2 =
      if first.2.requiresInput then .error (.requiresInput first.1)
      else (Stage.chain ((endedBy last (first :: rest)).map Stage.alone)).map
        fun stages => { command := Text.trim line, stages } := by
  obtain ⟨piece, pieces', hpieces, hfirst⟩ :
      ∃ piece more, pieces user = piece :: more ∧ first.1 = Text.trim piece := by
    generalize pieces user = all at hmade
    cases hmade with
    | plain => exact ⟨_, _, rfl, rfl⟩
    | redirect => exact ⟨_, _, rfl, rfl⟩
  rw [hpieces] at hmade
  obtain ⟨more, hmore⟩ := endedBy_cons last first rest
  have hended : withEnding ((first :: rest).map Stage.alone) (Stage.alone last) =
      (endedBy last (first :: rest)).map Stage.alone := withEnding_map_alone _ _
  have hlinked : linkStages piece ((endedBy last (first :: rest)).map Stage.alone) =
      if first.2.requiresInput then .error (.requiresInput first.1)
      else Stage.chain ((endedBy last (first :: rest)).map Stage.alone) := by
    rw [hmore, hfirst]
    rfl
  rw [build_of_filled hending hfilled, hpieces]
  simp only [makeStages_of_made hmade, Except.bind, hended, hlinked]
  split_ifs
  · rfl
  · rfl

private theorem Made.reads_iff {pieces : List Text}
    (h : Made directory tree pieces (first :: rest) after) :
    Reads directory first ↔ first.2.requiresInput = true := by
  cases h with
  | plain hcommand =>
      constructor
      · rintro (hfilter | hredirect)
        · exact hfilter.requiresInput
        · obtain ⟨_, -, hverb⟩ := hredirect
          rw [hverb]
          rfl
      · intro hrequires
        rcases hcommand with hsource | hfilter | hsolitary
        · rw [hsource.requiresInput] at hrequires
          cases hrequires
        · exact .inl hfilter
        · rw [hsolitary.requiresInput] at hrequires
          cases hrequires
  | redirect hspelled => exact ⟨fun _ => rfl, fun _ => .inr ⟨_, hspelled, rfl⟩⟩

private theorem refused_iff : (build directory tree line).2 = .error error ↔
    Refused directory tree line error := by
  constructor
  · intro h
    rcases bare_or_ending directory tree line with
      ⟨user, after, hfound, hbare⟩ | ⟨user, cleared, last, hending⟩
    · rw [build_of_bare_redirect hfound hbare] at h
      exact Except.error.inj h ▸ .bare hfound hbare
    by_cases hfilled : Text.trim user = []
    · rw [build_of_blank hending hfilled] at h
      exact Except.error.inj h ▸ .blank hending hfilled
    by_cases hmarks : ∀ c ∈ user, c = '|'
    · rw [build_of_marks hending hfilled hmarks] at h
      exact Except.error.inj h ▸ .marks hending hfilled hmarks
    rcases made_or_firstUnmade directory cleared (pieces user) with
      ⟨commands, left, hmade⟩ | ⟨other, left, hunmade⟩
    · cases commands with
      | nil =>
          generalize hpieces : pieces user = all at hmade
          cases hmade
          exact absurd (pieces_eq_nil_iff.mp hpieces) hmarks
      | cons first rest =>
          rw [build_of_made hending hfilled hmade] at h
          split_ifs at h with hreads
          · exact Except.error.inj h ▸ .headless hending hfilled hmade (hmade.reads_iff.mpr hreads)
          · have hleads : ¬ Reads directory first :=
              fun hfirst => hreads (hmade.reads_iff.mp hfirst)
            refine .unfit hending hfilled hmade hleads ((Stage.chain_eq_error_iff _ _).mp ?_)
            cases hchain : Stage.chain ((endedBy last (first :: rest)).map Stage.alone) with
            | error other =>
                rw [hchain] at h
                exact congrArg Except.error (Except.error.inj h)
            | ok stages =>
                rw [hchain] at h
                cases h
    · rw [build_of_unmade hending hfilled hunmade] at h
      exact Except.error.inj h ▸ .unmade hending hfilled hunmade
  · intro h
    cases h with
    | bare hfound hbare => exact build_of_bare_redirect hfound hbare
    | blank hending hblank => exact build_of_blank hending hblank
    | marks hending hfilled hmarks => exact build_of_marks hending hfilled hmarks
    | unmade hending hfilled hunmade => exact build_of_unmade hending hfilled hunmade
    | headless hending hfilled hmade hreads =>
        rw [build_of_made hending hfilled hmade, if_pos (hmade.reads_iff.mp hreads)]
    | unfit hending hfilled hmade hleads hunfit =>
        rw [build_of_made hending hfilled hmade,
          if_neg fun hreads => hleads (hmade.reads_iff.mpr hreads),
          (Stage.chain_eq_error_iff _ _).mpr hunfit]
        rfl

/-- An error that is neither about a job nor about a command that is linked already. -/
def IsAboutLine (error : ShellError) : Prop :=
  (∀ command, error ≠ .alreadyLinked command) ∧ (∀ index, error ≠ .invalidJobIndex index) ∧
    ∀ position, error ≠ .noSuchJob position

private theorem Unmade.isAboutLine (h : Unmade directory tree command error) :
    IsAboutLine error := by
  cases h <;> exact ⟨nofun, nofun, nofun⟩

private theorem Refused.isAboutLine (h : Refused directory tree line error) :
    IsAboutLine error := by
  cases h with
  | bare | blank | marks | headless => exact ⟨nofun, nofun, nofun⟩
  | unmade _ _ hunmade =>
      obtain ⟨_, _, _, _, -, -, hunmade⟩ := hunmade
      exact hunmade.isAboutLine
  | unfit _ _ _ _ hunfit =>
      obtain ⟨_, _, _, _, -, -, hunfit⟩ := hunfit
      cases hunfit <;> exact ⟨nofun, nofun, nofun⟩

/-- A line is refused with an error exactly when it has the form for it, so of all that is
wrong with a line the first that applies is said. That something is linked already is
never said of a line, nor anything about a job. -/
theorem build_eq_error_iff (directory line : Text) (tree : FileTree) :
    (∀ error, (build directory tree line).2 = .error error ↔
      Refused directory tree line error) ∧
    (∀ command, (build directory tree line).2 ≠ .error (.alreadyLinked command)) ∧
    (∀ index, (build directory tree line).2 ≠ .error (.invalidJobIndex index)) ∧
    ∀ position, (build directory tree line).2 ≠ .error (.noSuchJob position) := by
  refine ⟨fun _ => refused_iff, ?_, ?_, ?_⟩
  · exact fun command h => (refused_iff.mp h).isAboutLine.1 command rfl
  · exact fun index h => (refused_iff.mp h).isAboutLine.2.1 index rfl
  · exact fun position h => (refused_iff.mp h).isAboutLine.2.2 position rfl

/-- The first command lacks its file and the second its argument. The second one is never
looked at. -/
example : (build "/".toList .empty "cat f | grep | exit".toList).2 =
    .error (.fileNotFound "cat f".toList) := by decide +kernel

end LineShell.CommandLine
