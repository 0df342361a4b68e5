import Mathlib.Data.List.Forall2
import Mathlib.Tactic.Tauto
import LineShell.Proofs.Commands

/-!
Which lines are accepted. The form of a line is written down here from its
parts: the redirect that may end it, the segments of what is left, and the
command that each segment has to be. A line is made into a pipeline exactly
when it has this form, and the form fixes the stages.
-/

namespace LineShell.CommandLine

/-- A text is these segments with a `|` between each two of them, and any number
of `|` at its very end. -/
structure Segmented (text : Text) (segments : List Text) : Prop where
  nonempty : segments ≠ []
  free : ∀ segment ∈ segments, '|' ∉ segment
  last : (Text.joinWith '|' segments).getLast? ≠ some '|'
  rebuilt : ∃ count, text = Text.joinWith '|' segments ++ List.replicate count '|'

/-- Everything behind the last `>` of a line, and what stands before it, where no
`|` comes later. -/
def LastRedirect (line user after : Text) : Prop :=
  line = user ++ '>' :: after ∧ '>' ∉ after ∧ '|' ∉ after

/-- How a line ends: the text that is left for the user's stages, the file tree
from there on, and the command of the last stage. A destination is everything
behind the first space of the redirect text, and its file is removed. -/
inductive Ending (directory : Text) (tree : FileTree) (line : Text) :
    Text → FileTree → Text × Verb → Prop
  | print (none : ¬ ∃ user after, LastRedirect line user after) :
      Ending directory tree line line tree ("print".toList, .print)
  | redirect {user after word rest : Text} (found : LastRedirect line user after)
      (spaced : Text.trim ('>' :: after) = word ++ ' ' :: rest) (free : ' ' ∉ word)
      (given : Text.trim rest ≠ []) :
      Ending directory tree line user
        (clearFor tree (.redirect (Path.resolve directory (Text.trim rest))))
        (Text.trim ('>' :: after), .redirect (Path.resolve directory (Text.trim rest)))

/-- The lines that are accepted, with the file tree that making them leaves and
the stages that they are made into. Commands are trimmed segments. -/
inductive Accepted (directory : Text) (tree : FileTree) (line : Text) :
    FileTree → List Stage → Prop
  | solitary {segment : Text} {verb : Verb}
      (none : ¬ ∃ user after, LastRedirect line user after)
      (segmented : Segmented line [segment]) (plain : '>' ∉ segment)
      (command : SolitaryCommand directory tree (Text.trim segment) verb) :
      Accepted directory tree line tree (Stage.rowFrom false [(Text.trim segment, verb)])
  | row {user : Text} {cleared : FileTree} {last : Text × Verb} {first : Text}
      {rest : List Text} {source : Verb} {filters : List (Text × Verb)}
      (ending : Ending directory tree line user cleared last)
      (segmented : Segmented user (first :: rest))
      (plain : ∀ segment ∈ first :: rest, '>' ∉ segment)
      (source_command : SourceCommand directory cleared (Text.trim first) source)
      (filter_commands : List.Forall₂
        (fun segment filter => filter.1 = Text.trim segment ∧ FilterCommand filter.1 filter.2)
        rest filters) :
      Accepted directory tree line cleared
        (Stage.rowFrom false ((Text.trim first, source) :: filters ++ [last]))

/-! The redirect that ends a line. -/

theorem splitEnding_of_lastRedirect {line user after : Text}
    (h : LastRedirect line user after) :
    splitEnding line = (user, some ('>' :: after)) := by
  obtain ⟨rfl, hredirect, hpipe⟩ := h
  simp [splitEnding, Text.cutLast_append hredirect, hpipe]

theorem splitEnding_of_none {line : Text}
    (h : ¬ ∃ user after, LastRedirect line user after) :
    splitEnding line = (line, none) := by
  unfold splitEnding
  split
  · rename_i user redirect hcut
    obtain ⟨hline, hmark, hfree⟩ := Text.cutLast_eq_some hcut
    split
    · rfl
    · rename_i hpipe
      cases redirect with
      | nil => cases hmark
      | cons c after =>
          obtain rfl : c = '>' := by simpa using hmark
          have hafter : '|' ∉ after := fun hmem => hpipe (List.mem_cons_of_mem _ hmem)
          exact absurd ⟨user, after, hline, hfree, hafter⟩ h
  · rfl

/-- An ending that is made has its form. -/
theorem ending_of_makeEnding {directory line : Text} {ending : Stage} (tree : FileTree)
    (h : makeEnding directory (splitEnding line).2 = .ok ending) :
    ∃ last, ending = Stage.alone last ∧
      Ending directory tree line (splitEnding line).1 (clearFor tree last.2) last := by
  by_cases hlast : ∃ user after, LastRedirect line user after
  · obtain ⟨user, after, hlast⟩ := hlast
    rw [splitEnding_of_lastRedirect hlast] at h ⊢
    cases harg : argument (Text.trim ('>' :: after)) with
    | error error => simp [makeEnding, makeRedirect, harg, bind, Except.bind] at h
    | ok path =>
        obtain ⟨word, rest, hspaced, hfree, hgiven, rfl⟩ := argument_eq_ok_iff.mp harg
        simp only [makeEnding, makeRedirect, harg, bind, Except.bind, Except.ok.injEq] at h
        subst h
        let path := Path.resolve directory (Text.trim rest)
        exact ⟨(Text.trim ('>' :: after), .redirect path), rfl,
          .redirect hlast hspaced hfree hgiven⟩
  · rw [splitEnding_of_none hlast] at h ⊢
    obtain rfl := Except.ok.inj h
    exact ⟨("print".toList, .print), rfl, .print hlast⟩

/-- An ending that has its form is made. -/
theorem Ending.made {directory line user : Text} {tree cleared : FileTree}
    {last : Text × Verb} (h : Ending directory tree line user cleared last) :
    (splitEnding line).1 = user ∧ clearFor tree last.2 = cleared ∧
      makeEnding directory (splitEnding line).2 = .ok (Stage.alone last) := by
  cases h with
  | print hnone =>
      rw [splitEnding_of_none hnone]
      exact ⟨rfl, rfl, rfl⟩
  | redirect hfound hspaced hfree hgiven =>
      have harg := argument_eq_ok_iff.mpr ⟨_, _, hspaced, hfree, hgiven, rfl⟩
      rw [splitEnding_of_lastRedirect hfound]
      refine ⟨rfl, rfl, ?_⟩
      simp [makeEnding, makeRedirect, harg, bind, Except.bind, Stage.alone]

/-! The segments of the text before it. -/

theorem segments_eq_rdropWhile (text : Text) :
    segments text = (text.split '|').rdropWhile List.isEmpty := rfl

/-- The pieces between the marks are the segments and then only empty ones. -/
theorem split_eq_segments_append (text : Text) :
    ∃ count, text.split '|' = segments text ++ List.replicate count [] := by
  have hempty : ∀ piece ∈ (text.split '|').rtakeWhile List.isEmpty, piece = [] :=
    fun piece hpiece => List.isEmpty_iff.mp (List.mem_rtakeWhile_imp hpiece)
  refine ⟨((text.split '|').rtakeWhile List.isEmpty).length, ?_⟩
  rw [← List.eq_replicate_of_mem hempty, segments_eq_rdropWhile,
    List.rdropWhile_append_rtakeWhile]

theorem getLast?_joinWith_ne {pieces : List Text}
    (hfree : ∀ piece ∈ pieces, '|' ∉ piece) (hlast : pieces.getLast? ≠ some []) :
    (Text.joinWith '|' pieces).getLast? ≠ some '|' := by
  induction pieces using List.reverseRecOn with
  | nil => simp [Text.joinWith]
  | append_singleton front last _ =>
      have hne : last ≠ [] := by
        rintro rfl
        simp at hlast
      have hmark : last.getLast? ≠ some '|' := fun hmem =>
        hfree last (by simp) (List.mem_of_getLast? hmem)
      by_cases hfront : front = []
      · simpa [hfront, Text.joinWith] using hmark
      · rw [Text.joinWith_append_singleton '|' hfront, List.getLast?_append,
          List.getLast?_cons_of_ne_nil hne]
        cases hc : last.getLast? with
        | none => exact absurd (List.getLast?_eq_none_iff.mp hc) hne
        | some c => simpa [hc] using hmark

/-- The segments of a text have the form that is asked of them. -/
theorem segmented_segments {text : Text} (hne : segments text ≠ []) :
    Segmented text (segments text) := by
  obtain ⟨count, hsplit⟩ := split_eq_segments_append text
  have hfree : ∀ segment ∈ segments text, '|' ∉ segment := by
    intro segment hsegment
    have hpiece : segment ∈ text.split '|' := by
      rw [hsplit]
      exact List.mem_append_left _ hsegment
    exact Text.not_mem_of_mem_split hpiece
  have hlast : (segments text).getLast? ≠ some [] := by
    rw [segments, List.getLast?_reverse]
    intro hhead
    have := Text.head?_dropWhile_false hhead
    simp at this
  refine ⟨hne, hfree, getLast?_joinWith_ne hfree hlast, count, ?_⟩
  rw [← Text.joinWith_append_replicate '|' hne, ← hsplit, Text.joinWith_split]

/-- A text has no other segments than its own, one empty segment apart. -/
theorem segments_of_segmented {text : Text} {pieces : List Text}
    (h : Segmented text pieces) (hne : pieces ≠ [[]]) : segments text = pieces := by
  obtain ⟨count, rfl⟩ := h.rebuilt
  have hmark := h.last
  rw [segments_eq_rdropWhile, Text.split_joinWith_append h.nonempty h.free]
  clear h
  induction count with
  | zero =>
      rw [List.replicate_zero, List.append_nil, List.rdropWhile_eq_self_iff]
      intro hpieces hlast
      have hempty := List.isEmpty_iff.mp hlast
      have hparts := List.dropLast_append_getLast hpieces
      rw [hempty] at hparts
      have hfront : pieces.dropLast ≠ [] := by
        intro hfront
        rw [hfront] at hparts
        exact hne hparts.symm
      apply hmark
      rw [← hparts, Text.joinWith_append_singleton '|' hfront]
      simp
  | succ count ih =>
      rw [List.replicate_succ', ← List.append_assoc, List.rdropWhile_concat_pos _ _ _ rfl]
      exact ih

/-! The pieces of the segments. -/

private theorem piecesOfSegment_of_plain {segment : Text} (hplain : '>' ∉ segment) :
    piecesOfSegment segment = [segment] := by
  simp [piecesOfSegment, Text.cutFirst_eq_none.mpr hplain]

private theorem exists_redirect_piece {segment : Text} (hmark : '>' ∈ segment) :
    ∃ after, '>' :: after ∈ piecesOfSegment segment := by
  unfold piecesOfSegment
  split
  · rename_i before redirect hcut
    obtain ⟨-, hhead, -⟩ := Text.cutFirst_eq_some hcut
    obtain ⟨after, rfl⟩ : ∃ after, redirect = '>' :: after := by
      cases redirect with
      | nil => cases hhead
      | cons c after => exact ⟨after, by simpa using hhead⟩
    refine ⟨after, ?_⟩
    split <;> simp
  · rename_i hcut
    exact absurd hmark (Text.cutFirst_eq_none.mp hcut)

private theorem pieces_of_plain {text : Text} (hplain : ∀ segment ∈ segments text, '>' ∉ segment) :
    pieces text = segments text := by
  rw [pieces, List.flatMap_congr (g := fun segment => [segment])
    fun segment hsegment => piecesOfSegment_of_plain (hplain segment hsegment)]
  simp

/-! The stages of the pieces. -/

/-- A piece is made into this command. -/
def Makes (directory : Text) (tree : FileTree) (piece : Text) (command : Text × Verb) : Prop :=
  command.1 = Text.trim piece ∧ makeVerb directory tree (Text.trim piece) = .ok command.2

theorem makeStage_eq_ok_iff {directory piece : Text} {tree : FileTree} {stage : Stage} :
    makeStage directory tree piece = .ok stage ↔
      ∃ command, stage = Stage.alone command ∧ Makes directory tree piece command := by
  cases hverb : makeVerb directory tree (Text.trim piece) with
  | error error =>
      simp [makeStage, bind, Except.bind, hverb, Makes]
  | ok verb =>
      simp only [makeStage, bind, Except.bind, hverb, Except.ok.injEq, Makes]
      constructor
      · rintro rfl
        exact ⟨(Text.trim piece, verb), rfl, rfl, rfl⟩
      · rintro ⟨command, rfl, hcommand, hsame⟩
        rw [Stage.alone, hcommand, ← hsame]

/-- Stages are made one from each piece, each in some file tree. -/
theorem commands_of_makeStages {directory : Text} {tree after : FileTree} {pieces : List Text}
    {stages : List Stage} (h : makeStages directory tree pieces = (after, .ok stages)) :
    ∃ commands, stages = commands.map Stage.alone ∧
      List.Forall₂ (fun piece command => ∃ tree, Makes directory tree piece command)
        pieces commands := by
  induction pieces generalizing tree after stages with
  | nil =>
      simp only [makeStages, Prod.mk.injEq, Except.ok.injEq] at h
      exact ⟨[], h.2.symm, .nil⟩
  | cons piece rest ih =>
      cases hstage : makeStage directory tree piece with
      | error error => simp [makeStages, hstage] at h
      | ok stage =>
          obtain ⟨command, rfl, hmakes⟩ := makeStage_eq_ok_iff.mp hstage
          rcases hrest : makeStages directory (clearFor tree (Stage.alone command).verb) rest with
            ⟨left, _ | more⟩
          · simp [makeStages, hstage, hrest, Except.map] at h
          · obtain ⟨commands, rfl, hcommands⟩ := ih hrest
            simp only [makeStages, hstage, hrest, Except.map, Prod.mk.injEq,
              Except.ok.injEq] at h
            exact ⟨command :: commands, h.2.symm, .cons ⟨tree, hmakes⟩ hcommands⟩

theorem clearFor_of_not_sink {verb : Verb} (h : verb.isSink = false) (tree : FileTree) :
    clearFor tree verb = tree := by
  cases verb with
  | redirect path => cases h
  | _ => rfl

private theorem makeStages_of_makes {directory : Text} {tree : FileTree} {pieces : List Text}
    {commands : List (Text × Verb)} (hplain : ∀ command ∈ commands, command.2.isSink = false)
    (h : List.Forall₂ (Makes directory tree) pieces commands) :
    makeStages directory tree pieces = (tree, .ok (commands.map Stage.alone)) := by
  induction h with
  | nil => rfl
  | @cons piece command rest commands hmakes _ ih =>
      have hstage := makeStage_eq_ok_iff.mpr ⟨command, rfl, hmakes⟩
      have htree : clearFor tree (Stage.alone command).verb = tree :=
        clearFor_of_not_sink (hplain command List.mem_cons_self) tree
      have hrest := ih fun other hother => hplain other (List.mem_cons_of_mem _ hother)
      simp [makeStages, hstage, htree, hrest, Except.map]

/-- Without a redirect among them, all pieces see one file tree, and leave it. -/
theorem makes_of_makeStages {directory : Text} {tree after : FileTree} {pieces : List Text}
    {commands : List (Text × Verb)} (hplain : ∀ command ∈ commands, command.2.isSink = false)
    (h : makeStages directory tree pieces = (after, .ok (commands.map Stage.alone))) :
    after = tree ∧ List.Forall₂ (Makes directory tree) pieces commands := by
  induction pieces generalizing commands with
  | nil =>
      simp only [makeStages, Prod.mk.injEq, Except.ok.injEq] at h
      obtain rfl : commands = [] := by simpa using h.2.symm
      exact ⟨h.1.symm, .nil⟩
  | cons piece rest ih =>
      cases hstage : makeStage directory tree piece with
      | error error => simp [makeStages, hstage] at h
      | ok stage =>
          obtain ⟨command, rfl, hmakes⟩ := makeStage_eq_ok_iff.mp hstage
          rcases hrest : makeStages directory (clearFor tree (Stage.alone command).verb) rest with
            ⟨left, _ | more⟩
          · simp [makeStages, hstage, hrest, Except.map] at h
          · simp only [makeStages, hstage, hrest, Except.map, Prod.mk.injEq,
              Except.ok.injEq] at h
            obtain ⟨rfl, hstages⟩ := h
            cases commands with
            | nil => cases hstages
            | cons other commands =>
                simp only [List.map_cons, List.cons.injEq] at hstages
                obtain ⟨hsame, rfl⟩ := hstages
                obtain rfl : command = other := by
                  have hcommand := congrArg Stage.command hsame
                  have hverb := congrArg Stage.verb hsame
                  exact Prod.ext hcommand hverb
                have htree : clearFor tree (Stage.alone command).verb = tree :=
                  clearFor_of_not_sink (hplain command List.mem_cons_self) tree
                rw [htree] at hrest
                obtain ⟨rfl, hmore⟩ :=
                  ih (fun other hother => hplain other (List.mem_cons_of_mem _ hother)) hrest
                exact ⟨rfl, .cons hmakes hmore⟩

/-! Linking the stages. -/

theorem withEnding_map_alone (commands : List (Text × Verb)) (last : Text × Verb) :
    withEnding (commands.map Stage.alone) (Stage.alone last) =
      (if last.2 = .print ∧ commands.getLast?.any (fun command => command.2.isSolitary) = true
        then commands else commands ++ [last]).map Stage.alone := by
  cases commands using List.reverseRecOn with
  | nil => simp [withEnding]
  | append_singleton front command =>
      simp only [withEnding, List.map_append, List.map_cons, List.map_nil,
        List.getLast?_append, List.getLast?_singleton, Option.some_or, Option.any_some]
      split_ifs with h1 h2 h2
      · simp
      · exact absurd h1 h2
      · exact absurd h2 h1
      · simp

private theorem linkStages_eq_ok_iff {piece : Text} {command : Text × Verb}
    {rest : List (Text × Verb)} {linked : List Stage} :
    linkStages piece ((command :: rest).map Stage.alone) = .ok linked ↔
      command.2.requiresInput = false ∧ (command :: rest).IsChain Stage.Fits ∧
        linked = Stage.rowFrom false (command :: rest) := by
  rw [← Stage.chain_eq_ok_iff]
  by_cases hinput : command.2.requiresInput = true
  · simp [linkStages, Stage.alone, hinput]
  · simp [linkStages, Stage.alone, hinput]

/-! The class of a command, told by what it reads and writes. -/

theorem Ending.isSink {directory line user : Text} {tree cleared : FileTree}
    {last : Text × Verb} (h : Ending directory tree line user cleared last) :
    last.2.isSink = true := by
  cases h <;> rfl

theorem Makes.class {directory piece : Text} {tree : FileTree} {command : Text × Verb}
    (h : Makes directory tree piece command) :
    SourceCommand directory tree command.1 command.2 ∨ FilterCommand command.1 command.2 ∨
      SolitaryCommand directory tree command.1 command.2 ∨
      RedirectCommand directory command.1 command.2 := by
  obtain ⟨hcommand, hverb⟩ := h
  rw [hcommand]
  exact (makeVerb_eq_ok_iff fun c => Text.isBlank_of_getLast?_trim).mp hverb

/-- A command is a redirect, or it does not begin with `>` and none of its lines go to a
file. -/
theorem Makes.redirect_or_plain {directory piece : Text} {tree : FileTree}
    {command : Text × Verb} (h : Makes directory tree piece command) :
    RedirectCommand directory command.1 command.2 ∨
      command.1.head? ≠ some '>' ∧ command.2.isSink = false := by
  rcases h.class with hclass | hclass | hclass | hclass
  · exact .inr ⟨hclass.head?_ne, by simp [Verb.isSink, (Bool.and_eq_true_iff.mp hclass.isSource).1]⟩
  · exact .inr ⟨hclass.head?_ne, by simp [Verb.isSink, (Bool.and_eq_true_iff.mp hclass.isFilter).2]⟩
  · have haccepts := ((Verb.isSolitary_iff _).mp hclass.isSolitary).1
    exact .inr ⟨hclass.head?_ne, by simp [Verb.isSink, haccepts]⟩
  · exact .inl hclass

/-- A piece that begins with `>` can only be made into a redirect. -/
theorem Makes.redirect_of_mark {directory after : Text} {tree : FileTree}
    {command : Text × Verb} (h : Makes directory tree ('>' :: after) command) :
    RedirectCommand directory command.1 command.2 := by
  have hhead : command.1.head? = some '>' := by
    rw [h.1, Text.trim_cons_of_not_blank (by decide)]
    rfl
  exact h.redirect_or_plain.resolve_right fun hplain => hplain.1 hhead

private theorem Makes.isSink_of_mark {directory after : Text} {tree : FileTree}
    {command : Text × Verb} (h : Makes directory tree ('>' :: after) command) :
    command.2.isSink = true :=
  h.redirect_of_mark.isSink

private theorem Makes.source {directory piece : Text} {tree : FileTree} {command : Text × Verb}
    (h : Makes directory tree piece command) (hproduces : command.2.producesOutput = true)
    (hinput : command.2.requiresInput = false) :
    SourceCommand directory tree command.1 command.2 := by
  rcases h.class with hclass | hclass | hclass | hclass
  · exact hclass
  · rw [hclass.requiresInput] at hinput
    cases hinput
  · rw [((Verb.isSolitary_iff _).mp hclass.isSolitary).2] at hproduces
    cases hproduces
  · have hsink := hclass.isSink
    simp [Verb.isSink, hproduces] at hsink

private theorem Makes.filter {directory piece : Text} {tree : FileTree} {command : Text × Verb}
    (h : Makes directory tree piece command) (hfilter : command.2.isFilter = true) :
    FilterCommand command.1 command.2 := by
  obtain ⟨haccepts, hproduces⟩ := Bool.and_eq_true_iff.mp hfilter
  rcases h.class with hclass | hclass | hclass | hclass
  · have hsource := hclass.isSource
    simp [Verb.isSource, haccepts] at hsource
  · exact hclass
  · rw [((Verb.isSolitary_iff _).mp hclass.isSolitary).1] at haccepts
    cases haccepts
  · have hsink := hclass.isSink
    simp [Verb.isSink, hproduces] at hsink

private theorem Makes.solitary {directory piece : Text} {tree : FileTree} {command : Text × Verb}
    (h : Makes directory tree piece command) (hsolitary : command.2.isSolitary = true) :
    SolitaryCommand directory tree command.1 command.2 := by
  obtain ⟨haccepts, hproduces⟩ := (Verb.isSolitary_iff _).mp hsolitary
  rcases h.class with hclass | hclass | hclass | hclass
  · have hsource := hclass.isSource
    simp [Verb.isSource, hproduces] at hsource
  · have hfilter := hclass.isFilter
    simp [Verb.isFilter, hproduces] at hfilter
  · exact hclass
  · have hsink := hclass.isSink
    simp [Verb.isSink, haccepts] at hsink

/-- A text none of whose pieces is made into a redirect has no `>` in it. -/
theorem plain_of_makes {directory text : Text} {commands : List (Text × Verb)}
    (hmakes : List.Forall₂ (fun piece command => ∃ tree, Makes directory tree piece command)
      (pieces text) commands)
    (hsinks : ∀ command ∈ commands, command.2.isSink = false) :
    ∀ segment ∈ segments text, '>' ∉ segment := by
  intro segment hsegment hmark
  obtain ⟨after, hafter⟩ := exists_redirect_piece hmark
  have hpiece : '>' :: after ∈ pieces text := List.mem_flatMap.mpr ⟨segment, hsegment, hafter⟩
  obtain ⟨index, hindex, hget⟩ := List.getElem_of_mem hpiece
  have hlength := hmakes.length_eq
  obtain ⟨tree, hmade⟩ := hmakes.get hindex (hlength ▸ hindex)
  simp only [List.get_eq_getElem, hget] at hmade
  have hsink := hsinks _ (List.getElem_mem (hlength ▸ hindex))
  rw [hmade.isSink_of_mark] at hsink
  cases hsink

/-- A row links when it begins with something that writes, goes on with filters,
and ends in something that reads. -/
theorem isChain_row_iff {source last : Text × Verb} {filters : List (Text × Verb)} :
    (source :: filters ++ [last]).IsChain Stage.Fits ↔
      source.2.producesOutput = true ∧ (∀ filter ∈ filters, filter.2.isFilter = true) ∧
        last.2.acceptsInput = true := by
  induction filters generalizing source with
  | nil => simp [Stage.Fits, and_comm]
  | cons filter rest ih =>
      rw [List.cons_append, List.cons_append, List.isChain_cons_cons, ← List.cons_append, ih]
      simp only [Stage.Fits, Verb.isFilter, Bool.and_eq_true, List.mem_cons,
        forall_eq_or_imp]
      tauto

/-! Both directions. -/

theorem filterCommand_of_mem {segments : List Text} {filters : List (Text × Verb)}
    (h : List.Forall₂
      (fun segment filter => filter.1 = Text.trim segment ∧ FilterCommand filter.1 filter.2)
      segments filters) :
    ∀ filter ∈ filters, FilterCommand filter.1 filter.2 :=
  ((List.forall₂_and_left filters segments).mp (h.flip.imp fun _ _ => And.symm)).1

theorem isFilter_of_filterCommands {segments : List Text} {filters : List (Text × Verb)}
    (h : List.Forall₂
      (fun segment filter => filter.1 = Text.trim segment ∧ FilterCommand filter.1 filter.2)
      segments filters) :
    ∀ filter ∈ filters, filter.2.isFilter = true := fun filter hfilter =>
  (filterCommand_of_mem h filter hfilter).isFilter

private theorem filterCommands_of_makes {directory : Text} {tree : FileTree} {pieces : List Text}
    {commands : List (Text × Verb)} (hmakes : List.Forall₂ (Makes directory tree) pieces commands)
    (hfilters : ∀ command ∈ commands, command.2.isFilter = true) :
    List.Forall₂
      (fun piece command => command.1 = Text.trim piece ∧ FilterCommand command.1 command.2)
      pieces commands := by
  induction hmakes with
  | nil => exact .nil
  | @cons piece command rest commands hmade _ ih =>
      have hfilter := hmade.filter (hfilters command List.mem_cons_self)
      exact .cons ⟨hmade.1, hfilter⟩
        (ih fun other hother => hfilters other (List.mem_cons_of_mem _ hother))

/-- Where no piece is made into a redirect, the pieces of a text are its segments,
and there is no `>` in them. -/
theorem segmented_of_makeStages {directory user : Text} {cleared after : FileTree}
    {first : Text} {rest : List Text} {commands : List (Text × Verb)}
    (hpieces : pieces user = first :: rest)
    (hstages : makeStages directory cleared (first :: rest) =
      (after, .ok (commands.map Stage.alone)))
    (hsinks : ∀ command ∈ commands, command.2.isSink = false) :
    Segmented user (first :: rest) ∧ (∀ segment ∈ first :: rest, '>' ∉ segment) ∧
      after = cleared ∧ List.Forall₂ (Makes directory cleared) (first :: rest) commands := by
  obtain ⟨hafter, hmakes⟩ := makes_of_makeStages hsinks hstages
  have hsome : List.Forall₂ (fun piece command => ∃ tree, Makes directory tree piece command)
      (pieces user) commands := by
    rw [hpieces]
    exact hmakes.imp fun _ _ hmade => ⟨cleared, hmade⟩
  have hplain := plain_of_makes hsome hsinks
  have hsegments : segments user = first :: rest := by
    rw [← hpieces, pieces_of_plain hplain]
  have hsegmented : Segmented user (segments user) := segmented_segments (by simp [hsegments])
  rw [hsegments] at hsegmented hplain
  exact ⟨hsegmented, hplain, hafter, hmakes⟩

/-- Stages that link although the last of them stands alone are only one stage. -/
theorem singleton_of_isChain {command : Text × Verb} {more : List (Text × Verb)}
    (hchain : (command :: more).IsChain Stage.Fits)
    (hlast : (command :: more).getLast?.any (fun last => last.2.isSolitary) = true) :
    more = [] ∧ command.2.isSolitary = true := by
  cases more using List.reverseRecOn with
  | nil => exact ⟨rfl, by simpa using hlast⟩
  | append_singleton front last =>
      have haccepts := (isChain_row_iff.mp hchain).2.2
      rw [← List.cons_append, List.getLast?_append] at hlast
      have hsolitary := (Verb.isSolitary_iff last.2).mp (by simpa using hlast)
      rw [hsolitary.1] at haccepts
      cases haccepts

/-- Stages that link as they are stand alone, and stages that link with an ending
behind them are a source and filters. -/
theorem accepted_of_linked {directory line user first : Text} {tree cleared after : FileTree}
    {last : Text × Verb} {rest : List Text} {stages linked : List Stage}
    (hending : Ending directory tree line user cleared last)
    (hpieces : pieces user = first :: rest)
    (hstages : makeStages directory cleared (first :: rest) = (after, .ok stages))
    (hlinked : linkStages first (withEnding stages (Stage.alone last)) = .ok linked) :
    Accepted directory tree line after linked := by
  obtain ⟨commands, rfl, hmakes⟩ := commands_of_makeStages hstages
  obtain ⟨command, more, rfl⟩ : ∃ command more, commands = command :: more := by
    cases hmakes
    exact ⟨_, _, rfl⟩
  rw [withEnding_map_alone] at hlinked
  split at hlinked
  · rename_i halone
    obtain ⟨-, hchain, rfl⟩ := linkStages_eq_ok_iff.mp hlinked
    obtain ⟨rfl, hsolitary⟩ := singleton_of_isChain hchain halone.2
    have hsinks : ∀ other ∈ [command], other.2.isSink = false := by
      simp [Verb.isSink, ((Verb.isSolitary_iff _).mp hsolitary).1]
    obtain ⟨hsegmented, hplain, rfl, hmakes⟩ := segmented_of_makeStages hpieces hstages hsinks
    rcases hmakes with - | ⟨hmade, hrest⟩
    cases hrest
    have hcommand : command = (Text.trim first, command.2) := Prod.ext hmade.1 rfl
    cases hending with
    | redirect => cases halone.1
    | print hnone =>
        rw [hcommand]
        refine .solitary hnone hsegmented (hplain first List.mem_cons_self) ?_
        rw [← hmade.1]
        exact hmade.solitary hsolitary
  · rw [List.cons_append] at hlinked
    obtain ⟨hinput, hchain, rfl⟩ := linkStages_eq_ok_iff.mp hlinked
    obtain ⟨hproduces, hfilters, -⟩ := isChain_row_iff.mp hchain
    have hsinks : ∀ other ∈ command :: more, other.2.isSink = false := by
      intro other hother
      rcases List.mem_cons.mp hother with rfl | hmem
      · simp [Verb.isSink, hproduces]
      · simp [Verb.isSink, (Bool.and_eq_true_iff.mp (hfilters other hmem)).2]
    obtain ⟨hsegmented, hplain, rfl, hmakes⟩ := segmented_of_makeStages hpieces hstages hsinks
    rcases hmakes with - | ⟨hmade, hrest⟩
    have hcommand : command = (Text.trim first, command.2) := Prod.ext hmade.1 rfl
    rw [← List.cons_append, hcommand]
    refine .row hending hsegmented hplain ?_ (filterCommands_of_makes hrest hfilters)
    rw [← hmade.1]
    exact hmade.source hproduces hinput

/-- A line that is made into a pipeline has the form of an accepted line. -/
theorem accepted_of_build {directory line : Text} {tree cleared : FileTree}
    {pipeline : Pipeline} (h : build directory tree line = (cleared, .ok pipeline)) :
    Accepted directory tree line cleared pipeline.stages ∧ pipeline.command = Text.trim line := by
  unfold build at h
  cases hmade : makeEnding directory (splitEnding line).2 with
  | error error => simp [hmade] at h
  | ok ending =>
      obtain ⟨last, rfl, hending⟩ := ending_of_makeEnding tree hmade
      simp only [hmade] at h
      split at h
      · simp at h
      cases hpieces : pieces (splitEnding line).1 with
      | nil => simp [hpieces] at h
      | cons first rest =>
          simp only [hpieces] at h
          rcases hstages : makeStages directory (clearFor tree (Stage.alone last).verb)
            (first :: rest) with ⟨after, _ | stages⟩
          · simp [hstages] at h
          simp only [hstages] at h
          cases hlinked : linkStages first (withEnding stages (Stage.alone last)) with
          | error error => simp [hlinked] at h
          | ok linked =>
              simp only [hlinked, Prod.mk.injEq, Except.ok.injEq] at h
              obtain ⟨rfl, rfl⟩ := h
              exact ⟨accepted_of_linked hending hpieces hstages hlinked, rfl⟩

theorem ne_nil_of_accepted {directory : Text} {tree : FileTree} {command : Text} {verb : Verb}
    (h : SourceCommand directory tree command verb ∨
      SolitaryCommand directory tree command verb) : command ≠ [] := by
  rcases h with h | h
  · cases h <;> simp
  · cases h <;> simp

theorem mem_of_segmented {text segment : Text} {pieces : List Text}
    (h : Segmented text pieces) (hsegment : segment ∈ pieces) {c : Char} (hc : c ∈ segment) :
    c ∈ text := by
  obtain ⟨count, rfl⟩ := h.rebuilt
  exact List.mem_append_left _ (Text.mem_joinWith hsegment hc)

/-- A text whose first segment is a command is not blank, and its pieces are its
segments. -/
theorem pieces_of_segmented {user first : Text} {rest : List Text}
    (hsegmented : Segmented user (first :: rest))
    (hplain : ∀ segment ∈ first :: rest, '>' ∉ segment) (hfirst : Text.trim first ≠ []) :
    Text.allBlank user = false ∧ pieces user = first :: rest := by
  constructor
  · rw [Bool.eq_false_iff]
    intro hblank
    apply hfirst
    rw [Text.trim_eq_nil_iff, Text.allBlank_iff]
    intro c hc
    exact Text.allBlank_iff.mp hblank c (mem_of_segmented hsegmented List.mem_cons_self hc)
  · have hne : first :: rest ≠ [[]] := by
      rintro heq
      simp only [List.cons.injEq] at heq
      exact hfirst (by rw [heq.1]; rfl)
    have hsegments := segments_of_segmented hsegmented hne
    rw [pieces_of_plain (by rw [hsegments]; exact hplain), hsegments]

private theorem build_of_parts {directory line user first : Text} {tree cleared : FileTree}
    {last : Text × Verb} {rest : List Text} {commands : List (Text × Verb)}
    {linked : List Stage} (hending : Ending directory tree line user cleared last)
    (hsegmented : Segmented user (first :: rest))
    (hplain : ∀ segment ∈ first :: rest, '>' ∉ segment) (hfirst : Text.trim first ≠ [])
    (hmakes : List.Forall₂ (Makes directory cleared) (first :: rest) commands)
    (hsinks : ∀ command ∈ commands, command.2.isSink = false)
    (hlinked : linkStages first
      (withEnding (commands.map Stage.alone) (Stage.alone last)) = .ok linked) :
    build directory tree line =
      (cleared, .ok { command := Text.trim line, stages := linked }) := by
  obtain ⟨huser, hcleared, hmade⟩ := hending.made
  obtain ⟨hblank, hpieces⟩ := pieces_of_segmented hsegmented hplain hfirst
  have hstages := makeStages_of_makes hsinks hmakes
  have hverb : clearFor tree (Stage.alone last).verb = cleared := hcleared
  unfold build
  simp only [huser, hmade, hverb, hblank, hpieces, hstages, hlinked, Bool.false_eq_true,
    if_false]

theorem makes_of_class {directory piece : Text} {tree : FileTree} {verb : Verb}
    (h : SourceCommand directory tree (Text.trim piece) verb ∨
      FilterCommand (Text.trim piece) verb ∨
      SolitaryCommand directory tree (Text.trim piece) verb) :
    Makes directory tree piece (Text.trim piece, verb) := by
  refine ⟨rfl, (makeVerb_eq_ok_iff fun c => Text.isBlank_of_getLast?_trim).mpr ?_⟩
  rcases h with h | h | h
  · exact .inl h
  · exact .inr (.inl h)
  · exact .inr (.inr (.inl h))

/-- A line with the form of an accepted line is made into the pipeline of that
form. -/
theorem build_of_accepted {directory line : Text} {tree cleared : FileTree}
    {stages : List Stage} (h : Accepted directory tree line cleared stages) :
    build directory tree line = (cleared, .ok { command := Text.trim line, stages }) := by
  cases h with
  | @solitary segment verb hnone hsegmented hplain hcommand =>
      have hsolitary := hcommand.isSolitary
      obtain ⟨haccepts, -⟩ := (Verb.isSolitary_iff verb).mp hsolitary
      refine build_of_parts (.print hnone) hsegmented (by simpa using hplain)
        (ne_nil_of_accepted (.inr hcommand))
        (.cons (makes_of_class (.inr (.inr hcommand))) .nil)
        (by simp [Verb.isSink, haccepts]) ?_
      rw [withEnding_map_alone, if_pos (by simp [hsolitary])]
      exact linkStages_eq_ok_iff.mpr ⟨hcommand.requiresInput, by simp, rfl⟩
  | @row user _ last first rest source filters hending hsegmented hplain hsource hfilters =>
      have hproduces := (Bool.and_eq_true_iff.mp hsource.isSource).1
      have hlast := (Bool.and_eq_true_iff.mp hending.isSink).1
      have hall := isFilter_of_filterCommands hfilters
      have hmakes : List.Forall₂ (Makes directory cleared) (first :: rest)
          ((Text.trim first, source) :: filters) := by
        refine .cons (makes_of_class (.inl hsource)) (hfilters.imp ?_)
        rintro segment ⟨command, verb⟩ ⟨rfl, hclass⟩
        exact makes_of_class (.inr (.inl hclass))
      have hwrites : ∀ command ∈ (Text.trim first, source) :: filters,
          command.2.producesOutput = true := by
        intro command hcommand
        rcases List.mem_cons.mp hcommand with rfl | hfilter
        · exact hproduces
        · exact (Bool.and_eq_true_iff.mp (hall command hfilter)).2
      have hopen : ¬ (last.2 = .print ∧ ((Text.trim first, source) :: filters).getLast?.any
          (fun command => command.2.isSolitary) = true) := by
        rintro ⟨-, hsolitary⟩
        obtain ⟨command, hcommand, hsolitary⟩ := (Option.any_eq_true _ _).mp hsolitary
        have hwrite := hwrites command (List.mem_of_getLast? hcommand)
        rw [((Verb.isSolitary_iff _).mp hsolitary).2] at hwrite
        cases hwrite
      refine build_of_parts hending hsegmented hplain (ne_nil_of_accepted (.inl hsource)) hmakes
        (fun command hcommand => by simp [Verb.isSink, hwrites command hcommand]) ?_
      rw [withEnding_map_alone, if_neg hopen, List.cons_append]
      exact linkStages_eq_ok_iff.mpr ⟨hsource.requiresInput,
        isChain_row_iff.mpr ⟨hproduces, hall, hlast⟩, rfl⟩

/-- A line is accepted exactly when it has the form, and is then made into the
stages of that form. The redirect's file is removed and nothing else is
changed. -/
theorem build_eq_ok_iff (directory line : Text) (tree cleared : FileTree)
    (pipeline : Pipeline) :
    build directory tree line = (cleared, .ok pipeline) ↔
      Accepted directory tree line cleared pipeline.stages ∧
        pipeline.command = Text.trim line := by
  constructor
  · exact accepted_of_build
  · rintro ⟨haccepted, hcommand⟩
    rw [build_of_accepted haccepted, ← hcommand]

end LineShell.CommandLine
