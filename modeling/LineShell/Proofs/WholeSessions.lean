import LineShell.Proofs.PrintedBefore
import LineShell.Proofs.ReadLoop

/-!
A session that is run as a whole. Each line has come to its end before the next is taken,
and the pipelines in the background take their steps when the session waits for them.
This is one of the schedules, so all that is said of every schedule holds of it.
-/

namespace LineShell

namespace Run

variable {run : Run}

private theorem isOver_iff : run.isOver = true ↔ ∀ post ∈ run.posts, post.HasEnded := by
  have hexit (worker : Worker) : worker.exit?.isSome = true ↔ ∃ exit, worker = .gone exit := by
    cases worker <;> simp [Worker.exit?]
  simp only [isOver, List.all_eq_true, hexit, Post.HasEnded]

/-- Where all workers have ended, none of them takes a step. -/
theorem stepAt_of_isOver (h : run.isOver = true) (position : Nat)
    (world : World) : run.stepAt position world = none := by
  by_contra hstep
  obtain ⟨⟨next, later⟩, hsome⟩ := Option.ne_none_iff_exists'.mp hstep
  obtain ⟨worker, _, hworker, -, ⟨_, _, hone⟩, -⟩ := stepAt_elsewhere hsome
  obtain ⟨post, hpost, rfl⟩ := List.mem_map.mp (List.mem_of_getElem? hworker)
  obtain ⟨exit, hgone⟩ := isOver_iff.mp h post hpost
  rw [hgone] at hone
  cases hone

private theorem Sound.isOver_settle (h : run.Sound) (world : World) :
    (run.settle world).1.isOver = true :=
  isOver_iff.mpr ((h.settle world).1.ended_of_stuck (run.stepAt_settle world))

end Run

namespace Shell

variable {shell : Shell} {line : Text}

private theorem foreground?_eq_some_iff {pipeline : Pipeline} :
    shell.foreground? line = some pipeline ↔ ∃ command files,
      request line = .pipeline command false ∧
        CommandLine.build shell.world.directory shell.world.files command =
          (files, .ok pipeline) := by
  unfold foreground?
  split
  · rename_i command hrequest
    rcases hbuild : CommandLine.build shell.world.directory shell.world.files command with
      ⟨files, error | made⟩
    · simp [hrequest, hbuild, Except.toOption]
    · simp [hrequest, hbuild, Except.toOption]
  · rename_i hother
    constructor
    · intro h
      cases h
    · rintro ⟨command, files, hrequest, -⟩
      exact absurd hrequest (hother command)

private theorem reply?_eq_none_iff :
    shell.reply? line = none ↔ ∃ pipeline, shell.foreground? line = some pipeline := by
  unfold reply?
  split <;> simp_all

/-- A line that is answered at once leaves the shell as it was when it was taken. -/
theorem processLine_of_reply {flow : Flow} (h : shell.reply? line = some flow) :
    Dialogue.processLine shell line = (shell.accept line, flow) := by
  have hforeground : ∀ pipeline, shell.foreground? line ≠ some pipeline := by
    intro pipeline hpipeline
    rw [reply?_eq_none_iff.mpr ⟨pipeline, hpipeline⟩] at h
    cases h
  have hflow : (Dialogue.processLine shell line).2 = flow := by
    simpa only [reply?, Option.eq_none_iff_forall_ne_some.mpr hforeground,
      Option.some.injEq] using h
  refine Prod.ext ?_ hflow
  unfold accept
  split
  · rename_i command hrequest
    rcases hbuild : CommandLine.build shell.world.directory shell.world.files command with
      ⟨files, error | pipeline⟩
    · rw [Dialogue.processLine, execute_of_request hrequest, runPipeline_of_error hbuild]
    · exact absurd (foreground?_eq_some_iff.mpr ⟨command, files, hrequest, hbuild⟩)
        (hforeground pipeline)
  · rfl

/-- A line that is not answered at once has a pipeline in the foreground. When that has come to
its end the shell is as if it had been run at once. -/
theorem exists_finishForeground (h : shell.reply? line = none) :
    ∃ order after, (shell.accept line).follow (steps order) = some after ∧
      after.finishForeground? = some (Dialogue.processLine shell line) := by
  obtain ⟨pipeline, hforeground⟩ := reply?_eq_none_iff.mp h
  obtain ⟨command, files, hrequest, hbuild⟩ := foreground?_eq_some_iff.mp hforeground
  let taken : Shell := { shell with world := { shell.world with files } }
  have haccept : shell.accept line = taken.enterForeground pipeline := by
    simp only [accept, hrequest, hbuild, taken]
  have hprocess : Dialogue.processLine shell line = ((taken.runForeground pipeline).1,
      Dialogue.flow (.ok (taken.runForeground pipeline).2)) := by
    rw [Dialogue.processLine, execute_of_request hrequest, (runPipeline_of_ok hbuild).1]
  have hover := (Run.AtWork.start hbuild).sound.1.isOver_settle taken.world
  obtain ⟨order, hfollow⟩ := (Run.start pipeline).follow_settle taken.world
  rw [hprocess, runForeground]
  generalize (Run.start pipeline).settle taken.world = settled at hover hfollow ⊢
  have hjobs : (taken.enterForeground pipeline).jobs.started = taken.jobs.started ++
      [{ id := taken.jobs.nextId, run := Run.start pipeline, held := false }] := rfl
  rw [haccept]
  refine ⟨_, _, follow_alone hjobs hfollow, ?_⟩
  simp only [finishForeground?, List.getLast?_concat, hover, if_true, List.dropLast_concat]
  rfl

/-- What is on the console has nothing to do with the end of a pipeline. -/
theorem finishForeground?_takeConsole {processed : Shell × Flow}
    (h : shell.finishForeground? = some processed) :
    shell.takeConsole.1.finishForeground? = some (processed.1.takeConsole.1, processed.2) ∧
      processed.1.takeConsole.2 = shell.takeConsole.2 := by
  simp only [finishForeground?, takeConsole] at h ⊢
  cases hlast : shell.jobs.started.getLast? with
  | none =>
      rw [hlast] at h
      cases h
  | some job =>
      simp only [hlast] at h ⊢
      split at h
      · rename_i hover
        obtain rfl := Option.some.inj h
        rw [if_pos hover]
        exact ⟨rfl, rfl⟩
      · cases h

end Shell

namespace Display

variable {display : Display}

theorem become_shell (h : display.shell.world.console = []) :
    display.become display.shell = display := by
  rw [become, Shell.takeConsole_of_empty h]
  simp [Shell.takeConsole, h, Text.unlines]

/-- Lines that are written as they come are written like lines that come together. -/
theorem become_become (display : Display) (first second : Shell) :
    (display.become first).become second =
      display.become (second.behind first.takeConsole.2) := by
  simp [become, Shell.takeConsole, Shell.behind, World.behind, Text.unlines]

/-- The display after some steps of workers. -/
def works (display : Display) (order : List (Nat × Nat)) : Option Display :=
  order.foldlM (fun display turn => display.work turn.1 turn.2) display

private theorem works_of_follow {shell : Shell} {order : List (Nat × Nat)}
    (hconsole : display.shell.world.console = [])
    (h : display.shell.follow (Shell.steps order) = some shell) :
    display.works order = some (display.become shell) := by
  induction order generalizing display shell with
  | nil =>
      obtain rfl : display.shell = shell := by simpa [Shell.follow, Shell.steps] using h
      rw [become_shell hconsole]
      rfl
  | cons first order ih =>
      obtain ⟨next, hfirst, hrest⟩ := Option.bind_eq_some_iff.mp h
      have hwork : display.work first.1 first.2 = some (display.become next) := by
        have hmove : display.shell.work first.1 first.2 = some next := hfirst
        rw [work, hmove, Option.map_some]
      have hbehind := Shell.follow_behind next.takeConsole.1 next.takeConsole.2 order
      rw [next.takeConsole_behind, show next.follow (Shell.steps order) = some shell from hrest]
        at hbehind
      obtain ⟨last, hlast, rfl⟩ := Option.map_eq_some_iff.mp hbehind.symm
      have hmore := @ih (display.become next) last rfl hlast
      rw [become_become] at hmore
      rw [works, List.foldlM_cons, hwork]
      exact hmore

end Display

namespace Session

variable {session : Session}

theorem feed_of_processLine {line : Text} {after : Shell} {flow : Flow}
    (h : Dialogue.processLine session.shell line = (after, flow)) :
    session.feed line = ({ session with
        shell := after.takeConsole.1
        history := if Text.allBlank line then session.history else session.history.add line },
      Text.unlines after.world.console ++ flow.told, flow) := by
  simp only [Session.feed, Session.takeLine, h]
  cases flow with
  | proceed text => cases text <;> rfl
  | failed message | exit => rfl

private theorem shell_feed (session : Session) (line : Text) :
    (session.feed line).1.shell = (session.shell.execute line).1.takeConsole.1 := by
  rw [feed_of_processLine Prod.mk.eta.symm]
  rfl

private theorem config_feed (session : Session) (line : Text) :
    (session.feed line).1.config = session.config := rfl

private theorem config_feedAll (session : Session) (lines : List Text) :
    (session.feedAll lines).1.config = session.config := by
  induction lines generalizing session with
  | nil => rfl
  | cons line rest ih =>
      have hconfig := config_feed session line
      rw [feedAll]
      generalize session.feed line = fed at hconfig ⊢
      rcases fed with ⟨after, text, flow | message | -⟩
      · exact (ih after).trans hconfig
      · exact (ih after).trans hconfig
      · exact hconfig

theorem feedAll_cons (session : Session) (line : Text) (rest : List Text) :
    session.feedAll (line :: rest) =
      if (session.feed line).2.2 = .exit then
        ((session.feed line).1, session.config.prompt ++ (session.feed line).2.1)
      else (((session.feed line).1.feedAll rest).1, session.config.prompt ++
        (session.feed line).2.1 ++ ((session.feed line).1.feedAll rest).2) := by
  have hconfig := config_feed session line
  rw [feedAll]
  generalize session.feed line = fed at hconfig ⊢
  rcases fed with ⟨after, text, flow | message | -⟩ <;> simp [config_feedAll, ← hconfig]

private theorem history_feedAll {turns : List Turn} (h : Jobs.History turns session.shell.jobs)
    (lines : List Text) :
    ∃ more, Jobs.History (turns ++ more) (session.feedAll lines).1.shell.jobs := by
  induction lines generalizing session turns with
  | nil => exact ⟨[], by rwa [List.append_nil]⟩
  | cons line rest ih =>
      obtain ⟨more, hmore⟩ := Shell.history_execute h line
      have hnext : Jobs.History (turns ++ more) (session.feed line).1.shell.jobs := by
        rwa [shell_feed]
      rw [feedAll_cons]
      split
      · exact ⟨more, hnext⟩
      · obtain ⟨last, hlast⟩ := ih hnext
        exact ⟨more ++ last, by rwa [← List.append_assoc]⟩

end Session

namespace Loop

variable {loop : Loop} {session : Session}

private theorem follow_works {order : List (Nat × Nat)} {shell : Shell}
    (hgoing : loop.phase ≠ .ended)
    (hconsole : loop.display.shell.world.console = [])
    (h : loop.display.shell.follow (Shell.steps order) = some shell) :
    loop.follow (works order) = some (loop.become shell) := by
  have hworks := Display.works_of_follow hconsole h
  rw [become]
  generalize loop.display.become shell = display at hworks ⊢
  clear hconsole h
  induction order generalizing loop with
  | nil =>
      obtain rfl : loop.display = display := Option.some.inj hworks
      rfl
  | cons first order ih =>
      obtain ⟨next, hfirst, hrest⟩ := Option.bind_eq_some_iff.mp hworks
      have hturn : loop.turn (.work first.1 first.2) = some { loop with display := next } := by
        have hwork : loop.display.work first.1 first.2 = some next := hfirst
        simp only [turn, hgoing, if_false, hwork, Option.map_some]
      have hmore := @ih { loop with display := next } hgoing hrest
      rw [works, List.map_cons, follow, List.foldlM_cons, hturn]
      exact hmore

/-- A session, with what is on its console written. -/
def showing (session : Session) (written : Text) (unread : List Text) (phase : Phase) : Loop :=
  (ofSession session written unread phase).become session.shell

private theorem follow_showing {written : Text} {unread : List Text} {phase : Phase} {after : Shell}
    {order : List (Nat × Nat)} (hgoing : phase ≠ .ended)
    (h : session.shell.follow (Shell.steps order) = some after) :
    (showing session written unread phase).follow (works order) =
      some (showing { session with shell := after } written unread phase) := by
  have hbehind := Shell.follow_behind session.shell.takeConsole.1 session.shell.takeConsole.2 order
  rw [session.shell.takeConsole_behind, h] at hbehind
  obtain ⟨last, hlast, rfl⟩ := Option.map_eq_some_iff.mp hbehind.symm
  have hgoes : (showing session written unread phase).phase ≠ .ended := hgoing
  rw [follow_works hgoes rfl hlast]
  simp only [showing, become, Display.become_become]
  rfl

private theorem act_waiting {after : Shell} {processed : Shell × Flow}
    (h : after.finishForeground? = some processed) (written : Text) (unread : List Text) :
    (showing { session with shell := after } written unread .waiting).act =
      some (showing { session with shell := processed.1 } written unread
        (.telling processed.2)) := by
  obtain ⟨hfinish, hsame⟩ := Shell.finishForeground?_takeConsole h
  have hact : (showing { session with shell := after } written unread .waiting).act =
      after.takeConsole.1.finishForeground?.map fun next =>
        { (showing { session with shell := after } written unread .waiting).become next.1 with
          phase := .telling next.2 } := rfl
  rw [hact, hfinish, Option.map_some]
  simp only [showing, become, Display.become_become, ← hsame, Shell.takeConsole_behind]
  rfl

/-- A session that has taken a line and knows what follows from it tells the user. -/
theorem act_telling {line : Text} {after : Shell} {flow : Flow}
    (h : Dialogue.processLine session.shell line = (after, flow)) (written : Text)
    (unread : List Text) :
    (showing { session with
        shell := after
        history := if Text.allBlank line then session.history else session.history.add line }
      written unread (.telling flow)).act =
    some (ofSession (session.feed line).1 (written ++ (session.feed line).2.1) unread
      (if (session.feed line).2.2 = .exit then .saving else .prompting)) := by
  rw [Session.feed_of_processLine h]
  simp only [act, showing, become, ofSession, Display.write, Display.become, Shell.takeConsole,
    List.append_assoc]

/-- The loop takes a line and sees it to its end. -/
theorem follow_feed (session : Session) (written line : Text) (unread : List Text) :
    ∃ schedule, (ofSession session written (line :: unread) .prompting).follow schedule =
      some (ofSession (session.feed line).1
        (written ++ session.config.prompt ++ (session.feed line).2.1) unread
        (if (session.feed line).2.2 = .exit then .saving else .prompting)) := by
  let history := if Text.allBlank line then session.history else session.history.add line
  have htaken : (ofSession session written (line :: unread) .prompting).follow [.act, .act] =
      some (showing { session with shell := session.shell.accept line, history }
        (written ++ session.config.prompt) unread
        ((session.shell.reply? line).elim .waiting .telling)) := rfl
  cases hreply : session.shell.reply? line with
  | some flow =>
      have htold := act_telling (Shell.processLine_of_reply hreply)
        (written ++ session.config.prompt) unread
      refine ⟨[.act, .act] ++ [.act], ?_⟩
      rw [follow_append, htaken, hreply]
      simpa [follow, turn] using htold
  | none =>
      obtain ⟨order, after, hworks, hfinished⟩ := Shell.exists_finishForeground hreply
      have hwaited := @follow_showing
        { session with shell := session.shell.accept line, history }
        (written ++ session.config.prompt) unread .waiting after order (by decide) hworks
      have hfinish := @act_waiting { session with history } after _ hfinished
        (written ++ session.config.prompt) unread
      have htold := act_telling (Prod.mk.eta.symm : Dialogue.processLine session.shell line = _)
        (written ++ session.config.prompt) unread
      refine ⟨[.act, .act] ++ (works order ++ [.act, .act]), ?_⟩
      rw [follow_append, htaken, hreply, Option.bind_some, follow_append, Option.elim_none,
        hwaited, Option.bind_some, follow, List.foldlM_cons, turn, hfinish]
      simpa [turn] using htold

/-- The loop takes its lines until one ends the session or there are no more. -/
theorem follow_feedAll (session : Session) (written : Text) (lines : List Text) :
    ∃ schedule unread, (ofSession session written lines .prompting).follow schedule =
      some (ofSession (session.feedAll lines).1 (written ++ (session.feedAll lines).2) unread
        .saving) := by
  induction lines generalizing session written with
  | nil => exact ⟨[.act, .act], [], rfl⟩
  | cons line rest ih =>
      obtain ⟨order, hline⟩ := follow_feed session written line rest
      have hall := session.feedAll_cons line rest
      by_cases hexit : (session.feed line).2.2 = .exit
      · refine ⟨order, rest, ?_⟩
        rw [hline, hall, if_pos hexit, if_pos hexit, List.append_assoc]
      · obtain ⟨more, unread, hmore⟩ := ih (session.feed line).1
          (written ++ session.config.prompt ++ (session.feed line).2.1)
        refine ⟨order ++ more, unread, ?_⟩
        rw [follow_append, hline, Option.bind_some, if_neg hexit, hmore, hall, if_neg hexit]
        simp only [List.append_assoc]

/-- The loop remembers its lines and sees the pipelines in the background to their end. -/
theorem follow_close (hsound : ∀ job ∈ session.shell.jobs.started, job.run.Sound)
    (written : Text) (unread : List Text) :
    ∃ schedule, (ofSession session written unread .saving).follow schedule =
      some (ofSession session.close.1 (written ++ session.close.2) unread .ended) := by
  let shell := session.shell
  let saved : Shell := { shell with
    world := { shell.world with files := session.remember shell.world.files } }
  have hsaved : (ofSession session written unread .saving).act =
      some (showing { session with shell := saved } written unread .draining) := rfl
  obtain ⟨order, hworks⟩ := saved.follow_settle
  have hwaited := @follow_showing { session with shell := saved } written unread .draining
    saved.settle order (by decide) hworks
  have hover : saved.settle.jobs.held.all (fun job => job.run.isOver) = true := by
    rw [List.all_eq_true]
    intro job hjob
    obtain ⟨before, hbefore, world, rfl⟩ := Jobs.exists_of_forall₂
      (Jobs.forall₂_settleEach saved.jobs.started saved.world) job (List.mem_of_mem_filter hjob)
    exact (hsound before hbefore).isOver_settle world
  have hclosed :
      (showing { session with shell := saved.settle } written unread .draining).act =
        some (ofSession session.close.1 (written ++ session.close.2) unread .ended) := by
    have hrelease : saved.settle.takeConsole.1.finishBackground? =
        some saved.waitBackground.1.takeConsole.1 := by
      rw [Shell.finishBackground?,
        show saved.settle.takeConsole.1.jobs = saved.settle.jobs from rfl, hover, if_pos rfl]
      rfl
    simp only [act, showing, become, ofSession, Display.become, hrelease, Option.map_some]
    have hclose : session.close =
        ({ session with shell := saved.waitBackground.1.takeConsole.1 },
          Text.unlines saved.settle.takeConsole.2 ++
            Session.greeting session.config Session.goodbye) := rfl
    simp [hclose, Display.write, Shell.takeConsole, Text.unlines]
  refine ⟨.act :: (works order ++ [.act]), ?_⟩
  rw [follow, List.foldlM_cons, turn, hsaved]
  refine (follow_append _ _ _).trans ?_
  rw [hwaited, Option.bind_some, follow, List.foldlM_cons, turn, hclosed]
  rfl

/-- A session that is run as a whole follows one of the schedules. -/
theorem follow_run {shell : Shell} {turns : List Turn} (h : Jobs.History turns shell.jobs)
    (config : Config) (around : Surroundings) (lines : List Text) :
    ∃ schedule after, (start shell config around lines).follow schedule = some after ∧
      after.phase = .ended ∧
      (after.display.shell, after.display.written) =
        Session.run shell config around lines := by
  let opened := Session.start shell config around
  let fed := opened.1.feedAll lines
  obtain ⟨first, unread, hfirst⟩ := follow_feedAll opened.1 opened.2 lines
  obtain ⟨turns, hturns⟩ := opened.1.history_feedAll h lines
  obtain ⟨last, hlast⟩ := follow_close hturns.orderly.sound (opened.2 ++ fed.2) unread
  refine ⟨first ++ last,
    ofSession fed.1.close.1 (opened.2 ++ fed.2 ++ fed.1.close.2) unread .ended, ?_, rfl, rfl⟩
  refine (follow_append _ _ _).trans ?_
  rw [start, hfirst]
  exact hlast

end Loop

end LineShell
