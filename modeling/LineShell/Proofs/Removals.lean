import LineShell.Proofs.Background
import LineShell.Proofs.Openings
import LineShell.Proofs.RedirectPlaces
import LineShell.Proofs.Registry

/-!
What a line does before it runs. To make a line is to remove files: that of the
redirect which ends it, and then those of the redirects among its commands, from the
left up to the first command that cannot be made. Each of them is looked for in the
tree that the ones before it have left, so a command may miss the file that an earlier
one has removed. A file that the shell may not remove stays, and the line goes on. A line
that is refused has done nothing else.
-/

namespace LineShell

namespace CommandLine

/-- The tree before and after a redirect to a path has been made. Where the path leads
to a regular file, if only through links, the entry that it names is removed, if that is
allowed. -/
inductive Removal (tree : FileTree) (path : Text) : FileTree → Prop
  | removed {place : Place} {node : Node} (file : tree.isFile path = true)
      (entry : tree.locate false path = .found place node) (allowed : tree.access place = .full) :
      Removal tree path (tree.erase place)
  | kept (file : tree.isFile path = true) (kept : tree.IsKept path) : Removal tree path tree
  | untouched (other : tree.isFile path = false) : Removal tree path tree

/-- What making some pieces of a line one after the other does to the file tree, with
the first that is refused the last that is looked at. -/
inductive Clears (directory : Text) : FileTree → List Text → FileTree → Prop
  | done (tree : FileTree) : Clears directory tree [] tree
  | refused {tree : FileTree} {piece : Text} (rest : List Text)
      (refused : ∀ stage, makeStage directory tree piece ≠ .ok stage) :
      Clears directory tree (piece :: rest) tree
  | plain {tree after : FileTree} {piece : Text} {rest : List Text} {stage : Stage}
      (made : makeStage directory tree piece = .ok stage)
      (other : ∀ argument, Text.trim piece ≠ ">".toList ++ ' ' :: argument)
      (more : Clears directory tree rest after) : Clears directory tree (piece :: rest) after
  | redirect {tree cleared after : FileTree} {piece argument : Text} {rest : List Text}
      (spelled : Text.trim piece = ">".toList ++ ' ' :: argument)
      (removal : Removal tree (Path.resolve directory (Text.trim argument)) cleared)
      (more : Clears directory cleared rest after) : Clears directory tree (piece :: rest) after

/-- What making a line does to the file tree. The redirect that ends it comes first;
without an argument it is the end of the line. The pieces of what is left come then,
if that is not blank. -/
inductive Touches (directory : Text) (tree : FileTree) (line : Text) : FileTree → Prop
  | bare {user after : Text} (found : LastRedirect line user after)
      (bare : ∀ path, argument (Text.trim ('>' :: after)) ≠ .ok path) :
      Touches directory tree line tree
  | redirect {user after path : Text} {cleared last : FileTree}
      (found : LastRedirect line user after)
      (given : argument (Text.trim ('>' :: after)) = .ok path)
      (removal : Removal tree (Path.resolve directory path) cleared)
      (rest : if Text.allBlank user then last = cleared
        else Clears directory cleared (pieces user) last) :
      Touches directory tree line last
  | print {last : FileTree} (none : ¬ ∃ user after, LastRedirect line user after)
      (rest : if Text.allBlank line then last = tree
        else Clears directory tree (pieces line) last) :
      Touches directory tree line last

variable {directory line path : Text} {tree after : FileTree}

theorem removal_iff : Removal tree path after ↔ clearFor tree (.redirect path) = after := by
  constructor
  · rintro (⟨hfile, hentry, hallowed⟩ | ⟨hfile, named, other, hentry, hdenied⟩ | hother)
    · obtain ⟨place, node, hnamed, -, hremove⟩ := FileTree.remove_of_isFile hfile
      rw [hentry] at hnamed
      cases hnamed
      simp only [clearFor, hfile, if_true, hremove, hallowed]
    · obtain ⟨place, node, hnamed, -, hremove⟩ := FileTree.remove_of_isFile hfile
      rw [hentry] at hnamed
      cases hnamed
      simp only [clearFor, hfile, if_true, hremove, if_neg hdenied]
    · simp [clearFor, hother]
  · rintro rfl
    cases hfile : tree.isFile path with
    | true =>
        obtain ⟨place, node, hnamed, -, hremove⟩ := FileTree.remove_of_isFile hfile
        simp only [clearFor, hfile, if_true, hremove]
        split
        · exact .removed hfile hnamed ‹_›
        · exact .kept hfile ⟨place, node, hnamed, ‹_›⟩
    | false => simpa [clearFor, hfile] using Removal.untouched hfile

/-- A piece is made into a redirect if it is spelled as one, and does nothing to the tree
otherwise. -/
theorem clearFor_of_made {piece : Text} {stage : Stage}
    (h : makeStage directory tree piece = .ok stage) :
    (∃ argument, Text.trim piece = ">".toList ++ ' ' :: argument ∧
        stage.verb = .redirect (Path.resolve directory (Text.trim argument))) ∨
      (∀ argument, Text.trim piece ≠ ">".toList ++ ' ' :: argument) ∧
        clearFor tree stage.verb = tree := by
  obtain ⟨command, rfl, hmakes⟩ := makeStage_eq_ok_iff.mp h
  rcases hmakes.redirect_or_plain with ⟨argument, hcommand, hverb⟩ | ⟨hhead, hsink⟩
  · exact .inl ⟨argument, hmakes.1.symm.trans hcommand, hverb⟩
  · refine .inr ⟨fun argument hspelled => ?_, clearFor_of_not_sink hsink tree⟩
    rw [hmakes.1, hspelled] at hhead
    exact hhead rfl

private theorem makeStages_of_ok {piece : Text} {stage : Stage} (rest : List Text)
    (h : makeStage directory tree piece = .ok stage) :
    (makeStages directory tree (piece :: rest)).1 =
      (makeStages directory (clearFor tree stage.verb) rest).1 := by
  simp only [makeStages, h]

private theorem clears_iff {pieces : List Text} :
    Clears directory tree pieces after ↔ (makeStages directory tree pieces).1 = after := by
  constructor
  · intro h
    induction h with
    | done => rfl
    | @refused tree piece rest hrefused =>
        cases hstage : makeStage directory tree piece with
        | error error => simp only [makeStages, hstage]
        | ok stage => exact absurd hstage (hrefused stage)
    | plain hmade hother _ ih =>
        rcases clearFor_of_made hmade with ⟨argument, hspelled, -⟩ | ⟨-, hsame⟩
        · exact absurd hspelled (hother argument)
        · rw [makeStages_of_ok _ hmade, hsame, ih]
    | redirect hspelled hremoval _ ih =>
        rw [makeStages_of_ok _ (makeStage_of_spelled hspelled _), redirectTo, Stage.alone,
          removal_iff.mp hremoval, ih]
  · rintro rfl
    -- Each piece finds the tree that the pieces before it have left.
    induction pieces generalizing tree with
    | nil => exact .done tree
    | cons piece rest ih =>
        cases hstage : makeStage directory tree piece with
        | error error =>
            simp only [makeStages, hstage]
            exact .refused rest fun stage hmade => by
              rw [hstage] at hmade
              cases hmade
        | ok stage =>
            rw [makeStages_of_ok rest hstage]
            rcases clearFor_of_made hstage with ⟨argument, hspelled, hverb⟩ | ⟨hother, hsame⟩
            · rw [hverb]
              exact .redirect hspelled (removal_iff.mpr rfl) ih
            · rw [hsame]
              exact .plain hstage hother ih

/-- Once the ending of a line has been made, only its pieces are left to do anything. -/
theorem build_of_ending {user : Text} {redirect : Option Text} {ending : Stage}
    (hsplit : splitEnding line = (user, redirect))
    (hmade : makeEnding directory redirect = .ok ending) :
    (build directory tree line).1 =
      if Text.allBlank user then clearFor tree ending.verb
      else (makeStages directory (clearFor tree ending.verb) (pieces user)).1 := by
  simp only [build, hsplit, hmade]
  split
  · rfl
  · cases pieces user with
    | nil => rfl
    | cons first rest =>
        rcases hstages : makeStages directory (clearFor tree ending.verb) (first :: rest) with
          ⟨left, error | stages⟩
        · simp only [hstages]
        · simp only [hstages]
          split <;> rfl

/-- What is left of a line once its ending has been made. -/
theorem rest_iff {user : Text} {redirect : Option Text} {ending : Stage}
    (hsplit : splitEnding line = (user, redirect))
    (hmade : makeEnding directory redirect = .ok ending) :
    (if Text.allBlank user then after = clearFor tree ending.verb
      else Clears directory (clearFor tree ending.verb) (pieces user) after) ↔
    (build directory tree line).1 = after := by
  rw [build_of_ending hsplit hmade]
  split
  · exact eq_comm
  · exact clears_iff

/-- Where the ending of a line cannot be made, nothing is done. -/
theorem build_of_bare {user text : Text} (hfound : LastRedirect line user text)
    (hbare : ∀ path, argument (Text.trim ('>' :: text)) ≠ .ok path) :
    (build directory tree line).1 = tree := by
  cases harg : argument (Text.trim ('>' :: text)) with
  | ok path => exact absurd harg (hbare path)
  | error error =>
      simp [build, splitEnding_of_lastRedirect hfound, makeEnding, makeRedirect, harg, bind,
        Except.bind]

private theorem touches_iff :
    Touches directory tree line after ↔ (build directory tree line).1 = after := by
  constructor
  · rintro (⟨hfound, hbare⟩ | ⟨hfound, hgiven, hremoval, hrest⟩ | ⟨hnone, hrest⟩)
    · exact build_of_bare hfound hbare
    · refine (rest_iff (splitEnding_of_lastRedirect hfound) (makeEnding_of_argument hgiven)).mp ?_
      simp only [redirectTo, Stage.alone, removal_iff.mp hremoval]
      exact hrest
    · exact (rest_iff (splitEnding_of_none hnone) rfl).mp hrest
  · intro hbuild
    by_cases hfound : ∃ user after, LastRedirect line user after
    · obtain ⟨user, text, hfound⟩ := hfound
      cases harg : argument (Text.trim ('>' :: text)) with
      | error error =>
          have hbare : ∀ path, argument (Text.trim ('>' :: text)) ≠ .ok path := by
            simp [harg]
          rw [← hbuild, build_of_bare hfound hbare]
          exact .bare hfound hbare
      | ok path =>
          refine .redirect hfound harg (removal_iff.mpr rfl) ?_
          exact (rest_iff (splitEnding_of_lastRedirect hfound)
            (makeEnding_of_argument harg)).mpr hbuild
    · exact .print hfound ((rest_iff (splitEnding_of_none hfound) rfl).mpr hbuild)

end CommandLine

/-- To refuse a kill is to prune. -/
theorem Jobs.kill_of_error {jobs : Jobs} {position : Nat} {error : ShellError}
    (h : (jobs.kill position).2 = .error error) : (jobs.kill position).1 = jobs.prune := by
  by_cases hzero : position = 0
  · simp [kill, hzero]
  cases hjob : jobs.prune.held[position - 1]? with
  | none => simp [kill, hzero, hjob]
  | some job => simp [kill, hzero, hjob] at h

namespace Shell

/-- What a shell still has when it has refused a line. No worker is new, and none has
taken a step. -/
structure Spares (shell after : Shell) : Prop where
  name : after.name = shell.name
  console : after.world.console = shell.world.console
  directory : after.world.directory = shell.world.directory
  nextId : after.jobs.nextId = shell.jobs.nextId
  runs : after.jobs.runs = shell.jobs.runs
  live : after.jobs.live = shell.jobs.live

variable {shell : Shell} {text : Text} {error : ShellError}

private theorem spares_files (shell : Shell) (files : FileTree) :
    shell.Spares { shell with world := { shell.world with files } } :=
  ⟨rfl, rfl, rfl, rfl, rfl, rfl⟩

theorem spares_prune (shell : Shell) : shell.Spares { shell with jobs := shell.jobs.prune } := by
  refine ⟨rfl, rfl, rfl, rfl, shell.jobs.runs_prune, ?_⟩
  rw [Jobs.live, Jobs.held_prune, Jobs.live, List.filter_filter]
  simp

/-- A mark that stands alone is no line. -/
theorem trim_of_lone (hfilled : Text.trim text ≠ [])
    (hlone : (splitBackground (Text.trim text)).1 = []) : Text.trim text = "&".toList := by
  unfold splitBackground at hlone
  split at hlone
  · rename_i hmark
    have hline : (Text.trim text).dropLast ++ ['&'] = Text.trim text :=
      List.dropLast_append_getLast? '&' hmark
    calc Text.trim text = Text.trim (Text.trim text) := (Text.trim_trim text).symm
      _ = Text.trim ((Text.trim text).dropLast ++ ['&']) := by rw [hline]
      _ = Text.trim ['&'] := Text.trim_append_of_blank (Text.trim_eq_nil_iff.mp hlone) _
      _ = "&".toList := by decide
  · exact absurd hlone hfilled

private theorem spares_of_refused_kill {index : Text} (h : (shell.kill index).2 = .error error) :
    shell.Spares (shell.kill index).1 ∧
      (shell.kill index).1.world.files = shell.world.files := by
  cases hcount : Text.count? index with
  | none =>
      simp only [Shell.kill, hcount]
      exact ⟨shell.spares_files _, trivial⟩
  | some position =>
      have hkill : (shell.jobs.kill position).1 = shell.jobs.prune := by
        cases hkilled : (shell.jobs.kill position).2 with
        | error other => exact Jobs.kill_of_error hkilled
        | ok info => simp [Shell.kill, hcount, hkilled, Except.map] at h
      simp only [Shell.kill, hcount, hkill]
      exact ⟨shell.spares_prune, trivial⟩

private theorem spares_of_refused_pipeline {command : Text} {background : Bool}
    (h : (shell.runPipeline command background).2 = .error error) :
    shell.Spares (shell.runPipeline command background).1 ∧
      CommandLine.Touches shell.world.directory shell.world.files command
        (shell.runPipeline command background).1.world.files := by
  rcases hbuild : CommandLine.build shell.world.directory shell.world.files command with
    ⟨files, refusal | pipeline⟩
  · rw [runPipeline_of_error hbuild]
    refine ⟨shell.spares_files files, CommandLine.touches_iff.mpr ?_⟩
    rw [hbuild]
  · cases background with
    | true => rw [(runPipeline_of_ok hbuild).2] at h; cases h
    | false => rw [(runPipeline_of_ok hbuild).1] at h; cases h

/-- What a line has asked for that is answered with an error. -/
theorem request_of_error (h : (shell.execute text).2 = .error error) :
    request text = .lone (Text.trim text) ∧ Text.trim text = "&".toList ∨
    (∃ index, request text = .kill index ∧
      CommandLine.hasWord (splitBackground (Text.trim text)).1 killWord = true) ∨
    ∃ background, request text = .pipeline (splitBackground (Text.trim text)).1 background ∧
      Text.trim text ≠ "&".toList ∧
      CommandLine.hasWord (splitBackground (Text.trim text)).1 killWord = false := by
  by_cases hfilled : Text.trim text = []
  · simp [execute, request, hfilled] at h
  by_cases hexit : Text.trim text = exitWord
  · have hrequest : request text = .exit := by
      simp only [request, if_neg hfilled, if_pos hexit]
    simp only [execute, hrequest] at h
    cases h
  by_cases hlone : (splitBackground (Text.trim text)).1 = []
  · exact .inl ⟨by simp [request, hfilled, hexit, hlone], trim_of_lone hfilled hlone⟩
  by_cases hjobs : (splitBackground (Text.trim text)).1 = jobsWord
  · have hrequest : request text = .jobs := by
      simp only [request, if_neg hfilled, if_neg hexit, if_neg hlone, if_pos hjobs]
    simp only [execute, hrequest] at h
    cases h
  cases hkill : CommandLine.hasWord (splitBackground (Text.trim text)).1 killWord with
  | true =>
      have hrequest : request text =
          .kill (Text.trim ((splitBackground (Text.trim text)).1.drop killWord.length)) := by
        simp [request, hfilled, hexit, hlone, hjobs, hkill]
      exact .inr (.inl ⟨_, hrequest, rfl⟩)
  | false =>
      refine .inr (.inr ⟨(splitBackground (Text.trim text)).2, ?_, ?_, rfl⟩)
      · simp [request, hfilled, hexit, hlone, hjobs, hkill]
      · intro hmark
        rw [hmark] at hlone
        exact hlone (by decide)

/-- Making a line removes files and does nothing else to the tree: the file of the
redirect that ends it, and then those of its other redirects, each of them if that is
allowed. A shell that answers with an error has started nothing, and has done nothing but
to remove these files; where a kill is refused, or the mark stands alone, not even
that. -/
theorem refused_line_spares :
    (∀ directory tree line after, (CommandLine.build directory tree line).1 = after ↔
      CommandLine.Touches directory tree line after) ∧
    ∀ (shell : Shell) (text : Text) (error : ShellError),
      (shell.execute text).2 = .error error →
        shell.Spares (shell.execute text).1 ∧
        if Text.trim text = "&".toList ∨
            CommandLine.hasWord (splitBackground (Text.trim text)).1 killWord = true then
          (shell.execute text).1.world.files = shell.world.files
        else CommandLine.Touches shell.world.directory shell.world.files
          (splitBackground (Text.trim text)).1 (shell.execute text).1.world.files := by
  refine ⟨fun _ _ _ _ => CommandLine.touches_iff.symm, fun shell text error hrefused => ?_⟩
  rcases request_of_error hrefused with
    ⟨hrequest, hmark⟩ | ⟨index, hrequest, hkill⟩ | ⟨background, hrequest, hmark, hkill⟩
  · simp only [execute, hrequest, hmark, true_or, if_true]
    exact ⟨shell.spares_files _, trivial⟩
  · simp only [execute, hrequest, hkill, or_true, if_true] at hrefused ⊢
    exact spares_of_refused_kill hrefused
  · rw [execute_of_request hrequest] at hrefused ⊢
    rw [if_neg (by simpa using ⟨hmark, hkill⟩)]
    exact spares_of_refused_pipeline hrefused

/-- The first command of this line removes the file that the second one asks for. -/
theorem refused_line_spares_sample :
    ∃ error, (Sample.shell.execute "ls > f | cat f".toList).2 = .error error ∧
      Sample.shell.Spares (Sample.shell.execute "ls > f | cat f".toList).1 ∧
      Sample.shell.world.files.isFile "/f".toList = true ∧
      (Sample.shell.execute "ls > f | cat f".toList).1.world.files.isFile "/f".toList = false := by
  have hrefused : (Sample.shell.execute "ls > f | cat f".toList).2 =
      .error (.fileNotFound "cat f".toList) := by decide +kernel
  exact ⟨_, hrefused, (refused_line_spares.2 _ _ _ hrefused).1, by decide +kernel,
    by decide +kernel⟩

/-- A file that may not be removed is still there when the redirect to it has been made, and
the command that reads it is accepted. -/
theorem guarded_file_stays :
    CommandLine.LastRedirect "cat g > g".toList "cat g ".toList " g".toList ∧
      CommandLine.argument (Text.trim "> g".toList) = .ok "g".toList ∧
      Sample.guarded.isFile (Path.resolve "/".toList "g".toList) = true ∧
      (CommandLine.build "/".toList Sample.guarded "cat g > g".toList).1.node? ["g".toList] =
        some (.file (Text.encode "c\n".toList)) ∧
      (CommandLine.build "/".toList Sample.guarded "cat g > g".toList).2 =
        .ok
          { command := "cat g > g".toList
            stages := Stage.rowFrom false
              [("cat g".toList, .cat "/g".toList), ("> g".toList, .redirect "/g".toList)] } :=
  ⟨⟨by decide +kernel, by decide +kernel, by decide +kernel⟩, by decide +kernel,
    by decide +kernel, by decide +kernel, by decide +kernel⟩

end Shell

end LineShell
