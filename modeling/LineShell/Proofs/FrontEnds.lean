import LineShell.Proofs.CommandOutcomes
import LineShell.Proofs.TextLines

/-!
The two ways of giving the program one line: as a command, and as all that a quiet session
has to read. Both write the same and leave the same files, whatever the workers of the
line's pipeline do when, and only the code of a refused command is another one.
-/

namespace LineShell

namespace Text

private theorem trim_dropReturn (line : Text) : trim (dropReturn line) = trim line := by
  rw [dropReturn]
  split
  · rename_i hlast
    obtain ⟨front, rfl⟩ := List.getLast?_eq_some_iff.mp hlast
    rw [List.dropLast_concat, trim_append_blank (by decide)]
  · rfl

/-- A text without line ends and a line end are one line. -/
theorem lines_concat {text : Text} (hline : '\n' ∉ text) :
    lines (text ++ ['\n']) = [dropReturn text] := by
  have hunlines : text ++ ['\n'] = unlines [text] := by simp [unlines]
  rw [hunlines, lines_unlines (List.forall_mem_singleton.mpr hline)]
  rfl

end Text

namespace Shell

variable {shell : Shell} {line : Text}

/-- The code is one exactly when the line is refused, and otherwise zero. -/
theorem code_processLine (shell : Shell) (line : Text) :
    (∃ error, (shell.execute line).2 = .error error ∧
      Dialogue.processLine shell line = ((shell.execute line).1, .failed error.message)) ∨
    ∃ outcome, (shell.execute line).2 = .ok outcome ∧
      (Dialogue.processLine shell line).2.code = 0 := by
  simp only [Dialogue.processLine]
  cases (shell.execute line).2 with
  | error error => exact .inl ⟨error, rfl, rfl⟩
  | ok outcome => exact .inr ⟨outcome, rfl, by cases outcome <;> rfl⟩

/-- A line that is refused has no pipeline that could race. -/
theorem quietLine_of_refused {error : ShellError} (h : (shell.execute line).2 = .error error) :
    shell.QuietLine line := by
  intro command background hrequest files pipeline hbuild
  rw [execute_of_request hrequest] at h
  cases background with
  | true =>
      rw [(runPipeline_of_ok hbuild).2] at h
      cases h
  | false =>
      rw [(runPipeline_of_ok hbuild).1] at h
      cases h

/-- A shell without jobs that refuses a line has printed nothing, and has none still. -/
theorem bare_of_refused (hbare : shell.jobs.started = []) {error : ShellError}
    (h : (shell.execute line).2 = .error error) :
    (shell.execute line).1.jobs.started = [] ∧
      (shell.execute line).1.world.console = shell.world.console := by
  have hprocess : Dialogue.processLine shell line =
      ((shell.execute line).1, .failed error.message) := by
    simp only [Dialogue.processLine, h, Dialogue.flow]
  rcases accept_of_bare hbare line with
    ⟨hnone, hconsole, flow, hreply⟩ | ⟨pipeline, job, hstarts⟩
  · have hsame := (processLine_of_reply hreply).symm.trans hprocess
    obtain ⟨haccept, -⟩ := Prod.mk.inj hsame
    exact ⟨haccept ▸ hnone, haccept ▸ hconsole⟩
  · have hreply := hstarts.reply
    cases hheld : job.held with
    | true =>
        rw [hheld, if_pos rfl] at hreply
        have hsame := (processLine_of_reply hreply).symm.trans hprocess
        cases (Prod.mk.inj hsame).2
    | false =>
        rw [hheld, if_neg Bool.false_ne_true] at hreply
        obtain ⟨_, _, -, hfinished⟩ := exists_finishForeground hreply
        rw [hprocess] at hfinished
        cases (finishForeground?_cases hfinished).1

end Shell

namespace Session

variable {config : Config} {line : Text}

private theorem takeLine_congr {other : Text} (h : Text.trim line = Text.trim other)
    (shell : Shell) :
    takeLine shell line = takeLine shell other := by
  simp only [takeLine, Shell.processLine_congr h]

/-- A quiet session over one line does nothing besides. -/
theorem run_quiet (hquiet : config.IsQuiet) (shell : Shell) (around : Surroundings)
    (line : Text) :
    run shell config around [line] =
      ((settle (takeLine shell line).1).1,
        (takeLine shell line).2.1 ++ (settle (takeLine shell line).1).2) := by
  have hpath : config.historyPath? around = none := by
    simp [Config.historyPath?, hquiet.history]
  have hgreeting (text : Text) : greeting config text = [] := by
    simp [greeting, hquiet.banner]
  let session : Session := { shell, config }
  have hstart : start shell config around = (session, []) := by
    simp only [start, hpath, hgreeting]
    rfl
  have hall : session.feedAll [line] = ((session.feed line).1, (session.feed line).2.1) := by
    have hprompt : session.config.prompt = [] := hquiet.prompt
    have hafter : (session.feed line).1.config.prompt = [] := hquiet.prompt
    rw [feedAll_cons, feedAll, hprompt, hafter]
    split <;> simp
  rw [run, hstart]
  simp [hall, close, feed, remember, hgreeting, session]

/-- A shell without jobs has nothing to wait for. -/
theorem settle_of_bare {shell : Shell} (hbare : shell.jobs.started = []) :
    (settle shell).2 = Text.unlines shell.world.console := by
  simp [settle, Dialogue.shutdown, Shell.waitBackground, Shell.takeConsole, Jobs.waitAll,
    Jobs.settle, hbare, Jobs.settleEach]

end Session

namespace Program

variable {directory command : Text} {files : FileTree}

/-- What a run of one command can come to, in some order of the steps of its workers. -/
def CommandComes (directory : Text) (files : FileTree) (command : Text) (code : Nat)
    (output : Text) (left : FileTree) : Prop :=
  ∃ schedule after,
    (CommandRun.start (shellIn directory files) command).follow schedule = some after ∧
    after.phase = .ended code ∧ after.display.written = output ∧
    after.display.shell.world.files = left

/-- What a session over some lines can come to. -/
def SessionComes (directory : Text) (files : FileTree) (config : Config)
    (around : Surroundings) (lines : List Text) (output : Text) (left : FileTree) : Prop :=
  ∃ schedule after,
    (Loop.start (shellIn directory files) config around lines).follow schedule = some after ∧
    after.phase = .ended ∧ after.display.written = output ∧
    after.display.shell.world.files = left

/-- Whatever one of them can come to the other can come to as well. -/
theorem comes_iff {config : Config} (hquiet : config.IsQuiet) {line : Text}
    (hline : Text.trim line = Text.trim command) (around : Surroundings) (output : Text)
    (left : FileTree) :
    (∃ code, CommandComes directory files command code output left) ↔
      SessionComes directory files config around [line] output left := by
  have hsimulated : CommandRun.SimulatedBy line (.start (shellIn directory files) command)
      (.start (shellIn directory files) config around [line]) :=
    .start hline hquiet rfl around
  constructor
  · rintro ⟨code, schedule, state, hfollow, hover, rfl, rfl⟩
    obtain ⟨others, loop, hothers, hafter⟩ := hsimulated.follow_commandRun hfollow
    exact ⟨others, loop, hothers, hafter.ended_iff.mpr ⟨code, hover⟩, by rw [hafter.display],
      by rw [hafter.display]⟩
  · rintro ⟨schedule, loop, hfollow, hover, rfl, rfl⟩
    obtain ⟨others, state, hothers, hafter⟩ := hsimulated.follow_loop hfollow
    obtain ⟨code, hcode⟩ := hafter.ended_iff.mp hover
    exact ⟨code, others, state, hothers, hcode, by rw [hafter.display], by rw [hafter.display]⟩

private theorem runCommand_eq (directory : Text) (files : FileTree) (command : Text) :
    runCommand directory files command =
      { code := (Dialogue.processLine (shellIn directory files) command).2.code
        output := (Session.takeLine (shellIn directory files) command).2.1 ++
          (Session.settle (Session.takeLine (shellIn directory files) command).1).2
        errors := []
        files := (Session.settle
          (Session.takeLine (shellIn directory files) command).1).1.world.files } := by
  have hflow : (Session.takeLine (shellIn directory files) command).2.2 =
      (Dialogue.processLine (shellIn directory files) command).2 := rfl
  rw [← hflow, runCommand]
  generalize Session.takeLine (shellIn directory files) command = taken
  obtain ⟨shell, text, flow⟩ := taken
  cases flow <;> rfl

/-- A command that is refused writes the message and nothing else. -/
theorem output_of_refused {error : ShellError}
    (h : ((shellIn directory files).execute command).2 = .error error) :
    (runCommand directory files command).output = error.message ++ ['\n'] := by
  obtain ⟨hbare, hconsole⟩ := Shell.bare_of_refused rfl h
  have htaken : Session.takeLine (shellIn directory files) command =
      (((shellIn directory files).execute command).1.takeConsole.1, error.message ++ ['\n'],
        .failed error.message) := by
    simp only [Session.takeLine, Dialogue.processLine, h, Dialogue.flow, Shell.takeConsole,
      hconsole]
    rfl
  have hsettle : (Session.settle
      ((shellIn directory files).execute command).1.takeConsole.1).2 = [] :=
    Session.settle_of_bare hbare
  rw [runCommand_eq, htaken]
  simp only [hsettle, List.append_nil]

/-- What the program reports is one of the things that a run of the command can come to. -/
theorem commandComes_runCommand (directory : Text) (files : FileTree) (command : Text) :
    CommandComes directory files command (runCommand directory files command).code
      (runCommand directory files command).output (runCommand directory files command).files := by
  let config : Config := { prompt := [], banner := false, history := false }
  let around : Surroundings := { accountHome := [] }
  have hquiet : config.IsQuiet := ⟨rfl, rfl, rfl⟩
  obtain ⟨schedule, loop, hfollow, hover, hrun⟩ :=
    @Loop.follow_run (shellIn directory files) [] .start config around [command]
  rw [Session.run_quiet hquiet] at hrun
  obtain ⟨hshell, hwritten⟩ := Prod.mk.inj hrun
  obtain ⟨code, others, state, hothers, hcode, houtput, hleft⟩ :=
    (comes_iff hquiet rfl around _ _).mpr ⟨schedule, loop, hfollow, hover, hwritten, rfl⟩
  have hknown := CommandRun.code_of_follow rfl hothers hcode
  rw [runCommand_eq]
  exact ⟨others, state, hothers, hknown ▸ hcode, houtput, by rw [hleft, hshell]⟩

/-- Where the line does not race, nothing else can come of it. -/
theorem CommandComes.eq_runCommand {code : Nat} {output : Text} {left : FileTree}
    (h : CommandComes directory files command code output left)
    (hquietLine : (shellIn directory files).QuietLine command) :
    output = (runCommand directory files command).output ∧
      left = (runCommand directory files command).files := by
  obtain ⟨final, text, hall⟩ := CommandRun.exists_outcome rfl hquietLine
  obtain ⟨schedule, state, hfollow, hover, rfl, rfl⟩ := h
  obtain ⟨others, other, hothers, hended, houtput, hleft⟩ :=
    commandComes_runCommand directory files command
  obtain ⟨hfiles, hwritten⟩ := hall schedule state code hfollow hover
  obtain ⟨hsame, htext⟩ := hall others other _ hothers hended
  exact ⟨hwritten.trans (htext.symm.trans houtput), hfiles.trans (hsame.symm.trans hleft)⟩

/-- A session over the lines of a command and a line end, for whatever reads them. -/
theorem run_of_quiet {config : Config} (hquiet : config.IsQuiet) {around : Surroundings}
    (hload : Config.load files around = .ok config) {input line : Text}
    (hlines : inputLines input = [line]) (hline : Text.trim line = Text.trim command)
    (directory : Text) :
    run around directory files [] input =
      { runCommand directory files command with code := 0 } := by
  simp only [run, task, runSession, hload, hlines, Session.run_quiet hquiet, runCommand_eq,
    Session.takeLine_congr hline]

end Program

/-- The two front ends agree. For every command of one line and all files, a run of the
command and a quiet session over that line write the same and leave the same files, as the
program runs them; and whatever one of them can come to in some order of the steps of its
workers the other can come to as well. The code of the session is zero, and that of the
command is one exactly if the line is refused; then the message and a line end are all
that is written. Where the pipeline of the line does not race, there is nothing else that
either can come to. -/
theorem front_ends_agree (directory : Text) (files : FileTree) {command : Text}
    (hcommand : '\n' ∉ command) {config : Config} (hquiet : config.IsQuiet)
    (around : Surroundings) :
    (∀ input, Program.run around directory files ["-c".toList, command] input =
      Program.runCommand directory files command) ∧
    (∃ last, Session.run (Program.shellIn directory files) config around
        (Text.lines (command ++ ['\n'])) =
          (last, (Program.runCommand directory files command).output) ∧
      last.world.files = (Program.runCommand directory files command).files) ∧
    (Config.load files around = .ok config →
      Program.inputLines (command ++ ['\n']) = Text.lines (command ++ ['\n']) →
        Program.run around directory files [] (command ++ ['\n']) =
          { Program.runCommand directory files command with code := 0 }) ∧
    (∀ output left,
      (∃ code, Program.CommandComes directory files command code output left) ↔
        Program.SessionComes directory files config around (Text.lines (command ++ ['\n']))
          output left) ∧
    Program.CommandComes directory files command
      (Program.runCommand directory files command).code
      (Program.runCommand directory files command).output
      (Program.runCommand directory files command).files ∧
    ∀ code output left, Program.CommandComes directory files command code output left →
      ((∃ error, ((Program.shellIn directory files).execute command).2 = .error error ∧
          code = 1 ∧ output = error.message ++ ['\n']) ∨
        (∃ outcome, ((Program.shellIn directory files).execute command).2 = .ok outcome) ∧
          code = 0) ∧
      ((Program.shellIn directory files).QuietLine command →
        output = (Program.runCommand directory files command).output ∧
          left = (Program.runCommand directory files command).files) := by
  have hlines := Text.lines_concat hcommand
  have htrim := Text.trim_dropReturn command
  refine ⟨fun input => rfl, ?_, ?_, ?_, Program.commandComes_runCommand directory files command,
    fun code output left hcomes => ⟨?_, hcomes.eq_runCommand⟩⟩
  · rw [hlines, Session.run_quiet hquiet, Session.takeLine_congr htrim, Program.runCommand_eq]
    exact ⟨_, rfl, rfl⟩
  · intro hload hread
    exact Program.run_of_quiet hquiet hload (hread.trans hlines) htrim directory
  · rw [hlines]
    exact Program.comes_iff hquiet htrim around
  · obtain ⟨schedule, state, hfollow, hover, -, -⟩ := id hcomes
    have hcode := CommandRun.code_of_follow rfl hfollow hover
    rcases Shell.code_processLine (Program.shellIn directory files) command with
      ⟨error, hrefused, hprocess⟩ | ⟨outcome, hdone, hzero⟩
    · have hquietLine := Shell.quietLine_of_refused hrefused
      obtain ⟨houtput, -⟩ := hcomes.eq_runCommand hquietLine
      refine .inl ⟨error, hrefused, ?_, houtput.trans (Program.output_of_refused hrefused)⟩
      rw [hcode, hprocess]
      rfl
    · exact .inr ⟨⟨outcome, hdone⟩, hcode.trans hzero⟩

namespace Sample

/-- The small file tree, and the settings of a quiet session. -/
def quietTree : FileTree :=
  ((tree.insert [".config".toList] .directory).insert
    [".config".toList, "pipesh".toList] .directory).insert
    [".config".toList, "pipesh".toList, "config.toml".toList]
    (.file (Text.encode "prompt = \"\"\nbanner = false\nhistory = false\n".toList))

def quietConfig : Config :=
  { prompt := [], banner := false, history := false }

/-- A line that prints in the background, with a blank at its end that a reader takes for
part of the line end. -/
def command : Text := "cat f | uniq &\r".toList

private theorem quietLine_command : (Program.shellIn "/".toList quietTree).QuietLine command := by
  have hrequest : Shell.request command = .pipeline "cat f | uniq".toList true := by
    decide +kernel
  have hstages : (CommandLine.build "/".toList quietTree "cat f | uniq".toList).2 =
      .ok { command := "cat f | uniq".toList
            stages := Stage.rowFrom false
              [("cat f".toList, .cat "/f".toList), ("uniq".toList, .uniq),
                ("print".toList, .print)] } := by
    decide +kernel
  intro asked background hasked files pipeline hbuild
  obtain ⟨rfl, rfl⟩ : "cat f | uniq".toList = asked ∧ true = background := by
    simpa using hrequest.symm.trans hasked
  have hmade := congrArg Prod.snd hbuild
  rw [show (Program.shellIn "/".toList quietTree).world.files = quietTree from rfl] at hmade
  obtain rfl := Except.ok.inj (hstages.symm.trans hmade)
  rintro ⟨path, place, hlists, -⟩
  cases hlists

end Sample

theorem front_ends_agree_sample :
    '\n' ∉ Sample.command ∧ Sample.quietConfig.IsQuiet ∧
    Config.load Sample.quietTree Sample.around = .ok Sample.quietConfig ∧
    Program.inputLines (Sample.command ++ ['\n']) = Text.lines (Sample.command ++ ['\n']) ∧
    (Program.shellIn "/".toList Sample.quietTree).QuietLine Sample.command ∧
    (Program.runCommand "/".toList Sample.quietTree Sample.command).output =
      "b\na\n".toList ∧
    Program.run Sample.around "/".toList Sample.quietTree [] (Sample.command ++ ['\n']) =
      { Program.runCommand "/".toList Sample.quietTree Sample.command with code := 0 } ∧
    ∀ output left, Program.SessionComes "/".toList Sample.quietTree Sample.quietConfig
        Sample.around (Text.lines (Sample.command ++ ['\n'])) output left →
      output = "b\na\n".toList := by
  have hcommand : '\n' ∉ Sample.command := by decide
  have hquiet : Sample.quietConfig.IsQuiet := ⟨rfl, rfl, rfl⟩
  have hload : Config.load Sample.quietTree Sample.around = .ok Sample.quietConfig := by
    decide +kernel
  have hread : Program.inputLines (Sample.command ++ ['\n']) =
      Text.lines (Sample.command ++ ['\n']) := by decide +kernel
  have houtput : (Program.runCommand "/".toList Sample.quietTree Sample.command).output =
      "b\na\n".toList := by decide +kernel
  obtain ⟨-, -, hrun, hsame, -, hall⟩ :=
    front_ends_agree "/".toList Sample.quietTree hcommand hquiet Sample.around
  refine ⟨hcommand, hquiet, hload, hread, Sample.quietLine_command, houtput, hrun hload hread,
    fun output left hcomes => ?_⟩
  obtain ⟨code, hcode⟩ := (hsame output left).mpr hcomes
  exact ((hall code output left hcode).2 Sample.quietLine_command).1.trans houtput

end LineShell
