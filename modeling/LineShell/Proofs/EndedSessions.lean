import LineShell.Program
import LineShell.Proofs.WholeSessions

/-!
What stands behind a line that ends the session. Nothing of it is read: along every
schedule a session does the same whatever stands there, and so does the program, in all
that it reports.
-/

namespace LineShell

namespace Session

variable {line : Text}

private theorem feed_of_endsSession (h : Shell.EndsSession line) (session : Session) :
    (session.feed line).2.2 = .exit := by
  have hprocess : Dialogue.processLine session.shell line = (session.shell, .exit) := by
    rw [Dialogue.processLine, Shell.execute_of_endsSession h]
    rfl
  rw [feed_of_processLine hprocess]

private theorem feedAll_of_endsSession (h : Shell.EndsSession line) (session : Session)
    (front rest more : List Text) :
    session.feedAll (front ++ line :: rest) = session.feedAll (front ++ line :: more) := by
  induction front generalizing session with
  | nil =>
      have hexit := feed_of_endsSession h session
      simp only [List.nil_append, feedAll_cons, hexit, if_true]
  | cons first front ih => simp only [List.cons_append, feedAll_cons, ih]

private theorem run_of_endsSession (h : Shell.EndsSession line) (shell : Shell) (config : Config)
    (around : Surroundings) (front rest more : List Text) :
    run shell config around (front ++ line :: rest) =
      run shell config around (front ++ line :: more) := by
  simp only [run, feedAll_of_endsSession h _ front rest more]

end Session

namespace Loop

/-- Along every schedule. -/
theorem follow_of_endsSession {line : Text} (h : Shell.EndsSession line) {shell : Shell}
    {config : Config} {around : Surroundings} {front rest : List Text}
    {schedule : List Turning} {after : Loop}
    (hfollow : (start shell config around (front ++ line :: rest)).follow schedule = some after) :
    ∃ later, after.unread = later ++ rest ∧
      ∀ more, (start shell config around (front ++ line :: more)).follow schedule =
        some (after.withUnread (later ++ more)) := by
  have hbefore : (start shell config around (front ++ line :: rest)).Before line
      (front ++ [line]) := .inl ⟨front, rfl⟩
  have hunread : (start shell config around (front ++ line :: rest)).unread =
      (front ++ [line]) ++ rest := List.append_cons ..
  obtain ⟨later, hleft, hall⟩ := hbefore.follow h hunread hfollow
  refine ⟨later, hleft, fun more => ?_⟩
  rw [List.append_cons, ← hall more]
  rfl

end Loop

namespace Program

private theorem run_of_endsSession {line input other : Text} (h : Shell.EndsSession line)
    {front rest more : List Text} (hinput : inputLines input = front ++ line :: rest)
    (hother : inputLines other = front ++ line :: more) (around : Surroundings)
    (directory : Text) (files : FileTree) :
    run around directory files [] input = run around directory files [] other := by
  simp only [run, task, runSession, hinput, hother,
    Session.run_of_endsSession h _ _ _ front rest more]

end Program

/-- What a line has to do with the end of a session. -/
structure Shell.EndsOnly (line : Text) : Prop where
  answered : ∀ shell : Shell, (shell.execute line).2 = .ok .exit ↔ EndsSession line
  spared : EndsSession line → ∀ shell : Shell, (shell.execute line).1 = shell
  /-- What stands behind it is not read, along any schedule. -/
  unread : EndsSession line → ∀ (shell : Shell) (config : Config) (around : Surroundings)
    (front rest : List Text) (schedule : List Turning) (after : Loop),
      (Loop.start shell config around (front ++ line :: rest)).follow schedule = some after →
        ∃ later, after.unread = later ++ rest ∧
          ∀ more, (Loop.start shell config around (front ++ line :: more)).follow schedule =
            some (after.withUnread (later ++ more))
  /-- Nor does it show in what the program reports. -/
  reported : EndsSession line → ∀ (around : Surroundings) (directory : Text) (files : FileTree)
    (front rest more : List Text) (input other : Text),
      Program.inputLines input = front ++ line :: rest →
        Program.inputLines other = front ++ line :: more →
          Program.run around directory files [] input = Program.run around directory files [] other

/-- A line ends the session exactly when it is the word, but for blanks and the `|` at its
end; then nothing is done. A pipeline asks for the end exactly when it is made of the word
alone, and leaves the world as it is. What stands behind the first such line is not read
along any schedule, of which the program takes one, and the program reports the same
whatever it is. -/
theorem only_exit_lines_end :
    (∀ line, Shell.EndsOnly line) ∧
    (∀ (directory line : Text) (tree cleared : FileTree) (pipeline : Pipeline),
      CommandLine.build directory tree line = (cleared, .ok pipeline) →
      ∀ (world later : World) (moves : List Move) (after : Run),
        (Run.start pipeline).follow world moves = some (after, later) →
        (after.result.exitRequested = true ↔ pipeline.stages = CommandLine.exitStages) ∧
        (after.result.exitRequested = true → later = world)) ∧
    ∀ (directory : Text) (files : FileTree) (config : Config) (around : Surroundings)
      (lines : List Text), ∃ schedule after,
        (Loop.start (Program.shellIn directory files) config around lines).follow schedule =
          some after ∧
        after.phase = .ended ∧
        (after.display.shell, after.display.written) =
          Session.run (Program.shellIn directory files) config around lines := by
  refine ⟨fun line => ⟨fun shell => ⟨Shell.endsSession_of_execute, fun h => ?_⟩,
      fun h shell => ?_, fun h _ _ _ _ _ _ _ => Loop.follow_of_endsSession h,
      fun h around directory files _ _ _ _ _ hinput hother =>
        Program.run_of_endsSession h hinput hother around directory files⟩,
    fun directory line tree cleared pipeline hbuild world later moves after hfollow => ?_,
    fun directory files config around lines => Loop.follow_run .start config around lines⟩
  · rw [Shell.execute_of_endsSession h]
  · rw [Shell.execute_of_endsSession h]
  · have hstages := CommandLine.requestsExit_iff hbuild
    rw [← Run.exitRequested_result hfollow] at hstages
    exact ⟨hstages, fun hexit => Run.world_of_exitStages (hstages.mp hexit) hfollow⟩

namespace Sample

/-- A job is started and goes on while a second line ends the session. -/
def schedule : List Turning :=
  [.act, .act, .act, .work 0 0, .act, .act, .work 1 0, .work 0 1, .work 1 0, .work 1 0,
    .act, .act]

end Sample

/-- A job is at work when the session ends, and a line that would empty a file stands
behind the end. -/
theorem only_exit_lines_end_sample :
    Shell.EndsSession " exit ||".toList ∧
    (Sample.shell.execute " exit ||".toList).2 = .ok .exit ∧
    (∃ pipeline later after,
      CommandLine.build Sample.world.directory Sample.tree "exit ||".toList =
        (Sample.tree, .ok pipeline) ∧
      (Run.start pipeline).follow Sample.world [.cancel, .step 0] = some (after, later) ∧
      after.result.exitRequested = true ∧ later = Sample.world) ∧
    (∃ after later,
      (Loop.start Sample.shell {} Sample.around
        (["cat f | uniq > g &".toList] ++ " exit ||".toList :: ["> f".toList])).follow
          Sample.schedule = some after ∧
      after.unread = later ++ ["> f".toList] ∧
      (Loop.start Sample.shell {} Sample.around
        (["cat f | uniq > g &".toList] ++ " exit ||".toList :: [])).follow
          Sample.schedule = some (after.withUnread (later ++ []))) ∧
    Program.run Sample.around "/".toList Sample.tree []
        "cat f | uniq > g &\n exit ||\n> f\n".toList =
      Program.run Sample.around "/".toList Sample.tree []
        "cat f | uniq > g &\n exit ||".toList := by
  have hline : Shell.EndsSession " exit ||".toList := by decide +kernel
  have hword : Text.trim (CommandLine.dropEndMarks "exit ||".toList) = "exit".toList := by
    decide +kernel
  have hbuild := CommandLine.build_of_exit hword Sample.world.directory Sample.tree
  obtain ⟨hlines, hpipeline, -⟩ := only_exit_lines_end
  have hends := hlines " exit ||".toList
  refine ⟨hline, (hends.answered _).mpr hline, ?_, ?_, ?_⟩
  · let pipeline : Pipeline :=
      { command := Text.trim "exit ||".toList, stages := CommandLine.exitStages }
    have hmoves : ((Run.start pipeline).follow Sample.world [.cancel, .step 0]).isSome = true := by
      decide +kernel
    obtain ⟨⟨after, later⟩, hfollow⟩ := Option.isSome_iff_exists.mp hmoves
    obtain ⟨hexit, hworld⟩ := hpipeline _ _ _ _ _ hbuild _ _ _ _ hfollow
    have hrequested := hexit.mpr rfl
    exact ⟨pipeline, later, after, hbuild, hfollow, hrequested, hworld hrequested⟩
  · have hturns : ((Loop.start Sample.shell {} Sample.around
        (["cat f | uniq > g &".toList] ++ " exit ||".toList :: ["> f".toList])).follow
          Sample.schedule).isSome = true := by decide +kernel
    obtain ⟨after, hfollow⟩ := Option.isSome_iff_exists.mp hturns
    obtain ⟨later, hunread, hother⟩ := hends.unread hline Sample.shell {} Sample.around
      ["cat f | uniq > g &".toList] ["> f".toList] Sample.schedule after hfollow
    exact ⟨after, later, hfollow, hunread, hother []⟩
  · apply hends.reported hline Sample.around "/".toList Sample.tree
      ["cat f | uniq > g &".toList] ["> f".toList] []
    · decide +kernel
    · decide +kernel

end LineShell
