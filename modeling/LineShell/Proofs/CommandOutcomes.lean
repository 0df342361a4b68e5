import LineShell.Proofs.CommandRuns

/-!
What a run of one command comes to. Its code does not depend on the schedule. Where the
pipeline of the command does not race, neither does what is written nor what becomes of
the files: the shell has no other jobs, so whoever waits at last has seen every worker
of that pipeline come to its end.
-/

namespace LineShell

/-- A line that can be told beforehand, if it asks for a pipeline. -/
def Shell.QuietLine (shell : Shell) (line : Text) : Prop :=
  ∀ command background, Shell.request line = .pipeline command background → shell.Quiet command

namespace Shell

variable {shell : Shell} {line : Text}

/-- What it is for a line to give a shell its only job, which has yet to begin. The line is
answered at once if the registry holds the job. -/
structure StartsOnlyJob (shell : Shell) (line : Text) (pipeline : Pipeline) (job : Job) : Prop where
  built : ∃ command files, request line = .pipeline command job.held ∧
    CommandLine.build shell.world.directory shell.world.files command =
      (files, .ok pipeline) ∧
    (shell.accept line).world = { shell.world with files }
  alone : (shell.accept line).jobs.started = [job]
  run : job.run = Run.start pipeline
  reply : shell.reply? line = if job.held then some (.proceed none) else none

/-- A shell without jobs has none when it has taken a line, or just one. -/
theorem accept_of_bare (hbare : shell.jobs.started = []) (line : Text) :
    ((shell.accept line).jobs.started = [] ∧
        (shell.accept line).world.console = shell.world.console ∧
        ∃ flow, shell.reply? line = some flow) ∨
      ∃ pipeline job, shell.StartsOnlyJob line pipeline job := by
  cases hrequest : request line with
  | nothing | exit | lone text =>
      simp only [accept, reply?, foreground?, hrequest, execute]
      exact .inl ⟨hbare, trivial, _, rfl⟩
  | jobs =>
      simp only [accept, reply?, foreground?, hrequest, execute]
      refine .inl ⟨?_, trivial, _, rfl⟩
      simp [Jobs.list, Jobs.prune, hbare]
  | kill index =>
      simp only [accept, reply?, foreground?, hrequest, execute, kill]
      cases Text.count? index with
      | none => exact .inl ⟨hbare, rfl, _, rfl⟩
      | some position =>
          refine .inl ⟨?_, rfl, _, rfl⟩
          have hprune : shell.jobs.prune.started = [] := by simp [Jobs.prune, hbare]
          simp [Jobs.kill, Jobs.held, hprune]
  | pipeline command background =>
      rcases hbuild : CommandLine.build shell.world.directory shell.world.files command with
        ⟨files, error | pipeline⟩
      · cases background with
        | true =>
            simp only [accept, reply?, foreground?, hrequest, execute_of_request hrequest,
              runPipeline_of_error hbuild]
            exact .inl ⟨hbare, trivial, _, rfl⟩
        | false =>
            simp only [accept, reply?, foreground?, hrequest, hbuild]
            exact .inl ⟨hbare, trivial, _, rfl⟩
      · cases background with
        | true =>
            have haccept : shell.accept line = { shell with
                world := { shell.world with files }
                jobs := (shell.jobs.register (Run.start pipeline)).1 } := by
              simp only [accept, hrequest, execute_of_request hrequest,
                (runPipeline_of_ok hbuild).2]
            refine .inr ⟨pipeline, { id := shell.jobs.nextId, run := Run.start pipeline },
              ⟨command, files, hrequest, hbuild, by rw [haccept]⟩, ?_, rfl, ?_⟩
            · simp [haccept, Jobs.register, hbare]
            · simp only [reply?, foreground?, hrequest, Dialogue.processLine,
                execute_of_request hrequest, (runPipeline_of_ok hbuild).2]
              rfl
        | false =>
            have haccept : shell.accept line =
                ({ shell with world := { shell.world with files } } : Shell).enterForeground
                  pipeline := by
              simp only [accept, hrequest, hbuild]
            refine .inr ⟨pipeline,
              { id := shell.jobs.nextId, run := Run.start pipeline, held := false },
              ⟨command, files, hrequest, hbuild, by rw [haccept]; rfl⟩, ?_, rfl, ?_⟩
            · simp [haccept, enterForeground, hbare]
            · simp only [reply?, foreground?, hrequest, hbuild]
              rfl

/-- The pipeline in the foreground was the last job, and has come to its end. There is
nothing to tell then. -/
theorem finishForeground?_cases {after : Shell} {flow : Flow}
    (h : shell.finishForeground? = some (after, flow)) :
    flow.code = 0 ∧ flow.told = [] ∧ after.world = shell.world ∧
      ∃ before job, shell.jobs.started = before ++ [job] ∧ job.run.isOver = true ∧
        after.jobs.started = before := by
  simp only [finishForeground?] at h
  split at h
  · rename_i job hlast
    split at h
    · rename_i hover
      obtain ⟨before, hstarted⟩ := List.getLast?_eq_some_iff.mp hlast
      obtain ⟨rfl, rfl⟩ := Prod.mk.inj (Option.some.inj h)
      refine ⟨?_, ?_, rfl, before, job, hstarted, hover, ?_⟩
      · cases job.run.result.exitRequested <;> rfl
      · cases job.run.result.exitRequested <;> rfl
      · simp [hstarted]
    · cases h
  · cases h

end Shell

namespace Display

variable {display after : Display} {files : FileTree} {text : Text}

@[simp]
private theorem write_nil (display : Display) : display.write [] = display := by
  simp [write]

/-- Which of the jobs that were started the registry holds. -/
def marks (display : Display) : List Bool :=
  display.shell.jobs.started.map Job.held

/-- Whatever steps its workers take, when they have all come to their end these are the
files and this is all that has been written. -/
structure EndsAs (display : Display) (files : FileTree) (text : Text) : Prop where
  console : display.shell.world.console = []
  ends : ∀ order after, display.works order = some after →
    (∀ job ∈ after.shell.jobs.started, job.run.isOver = true) →
      after.shell.world.files = files ∧ after.written = text

private theorem marks_of_work {place position : Nat}
    (h : display.work place position = some after) :
    after.marks = display.marks := by
  obtain ⟨shell, hshell, rfl⟩ := Option.map_eq_some_iff.mp h
  obtain ⟨job, run, later, hjob, -, rfl⟩ := Shell.work_cases hshell
  exact Jobs.map_set_of_getElem? hjob rfl

private theorem EndsAs.work (h : display.EndsAs files text) {place position : Nat}
    (hwork : display.work place position = some after) : after.EndsAs files text := by
  constructor
  · obtain ⟨shell, -, rfl⟩ := Option.map_eq_some_iff.mp hwork
    rfl
  · intro order last hworks hover
    refine h.ends ((place, position) :: order) last ?_ hover
    rw [works, List.foldlM_cons, hwork]
    exact hworks

/-- When they all have, it is so. -/
theorem EndsAs.now (h : display.EndsAs files text)
    (hover : ∀ job ∈ display.shell.jobs.started, job.run.isOver = true) :
    display.shell.world.files = files ∧ display.written = text :=
  h.ends [] display rfl hover

/-- Without jobs there are no steps. -/
theorem work_of_bare (hbare : display.shell.jobs.started = []) (place position : Nat) :
    display.work place position = none := by
  simp [work, Shell.work, Jobs.work, hbare]

private theorem endsAs_of_bare (hbare : display.shell.jobs.started = [])
    (hconsole : display.shell.world.console = []) :
    display.EndsAs display.shell.world.files display.written := by
  refine ⟨hconsole, fun order after hworks _ => ?_⟩
  cases order with
  | nil =>
      obtain rfl : display = after := Option.some.inj hworks
      exact ⟨rfl, rfl⟩
  | cons first order =>
      rw [works, List.foldlM_cons, work_of_bare hbare] at hworks
      cases hworks

private theorem EndsAs.finish {shell : Shell} {flow : Flow} (h : display.EndsAs files text)
    (hmarks : display.marks = [false])
    (hfinished : display.shell.finishForeground? = some (shell, flow)) :
    (display.become shell).EndsAs files text ∧ (display.become shell).marks = [] := by
  obtain ⟨-, -, hworld, before, job, hstarted, hover, hleft⟩ :=
    Shell.finishForeground?_cases hfinished
  obtain rfl : before = [] := by
    rw [marks, hstarted, List.map_append] at hmarks
    simpa using congrArg List.length hmarks
  obtain ⟨rfl, rfl⟩ := h.now (by simpa [hstarted] using hover)
  have hdone := @endsAs_of_bare (display.become shell) hleft rfl
  have hnone : (display.become shell).marks = [] := by simp [marks, hleft]
  refine ⟨?_, hnone⟩
  simpa [become, Shell.takeConsole, hworld, h.console, Text.unlines] using hdone

/-- When the registry lets go of its jobs, and there are no others, all have ended. -/
theorem EndsAs.release {shell : Shell} (h : display.EndsAs files text)
    (hheld : false ∉ display.marks) (hreleased : display.shell.finishBackground? = some shell) :
    (display.become shell).shell.world.files = files ∧ (display.become shell).written = text := by
  rw [Shell.finishBackground?] at hreleased
  split at hreleased
  · rename_i hover
    obtain rfl := Option.some.inj hreleased
    have hall : ∀ job ∈ display.shell.jobs.started, job.run.isOver = true := by
      intro job hjob
      have hmine : job.held = true := by
        by_contra hother
        exact hheld (List.mem_map.mpr ⟨job, hjob, Bool.eq_false_of_not_eq_true hother⟩)
      exact List.all_eq_true.mp hover job (List.mem_filter.mpr ⟨hjob, hmine⟩)
    obtain ⟨rfl, rfl⟩ := h.now hall
    refine ⟨rfl, ?_⟩
    simp [become, Shell.takeConsole, h.console, Text.unlines]
  · cases hreleased

/-- A display that shows what a world has come to. -/
structure Shows (display : Display) (world : World) : Prop where
  seen : display.shell.world = { world with console := [] }
  written : display.written = Text.unlines world.console

/-- A step does to the world what it does to the display that shows it. -/
theorem Shows.work {world : World} (h : display.Shows world) {place position : Nat}
    (hwork : display.work place position = some after) :
    ∃ job run later, display.shell.jobs.started[place]? = some job ∧
      job.run.stepAt position world = some (run, later) ∧ after.Shows later ∧
      after.shell.jobs.started = display.shell.jobs.started.set place { job with run } := by
  obtain ⟨shell, hshell, rfl⟩ := Option.map_eq_some_iff.mp hwork
  obtain ⟨job, run, later, hjob, hstep, rfl⟩ := Shell.work_cases hshell
  have hbehind : display.shell.world.behind world.console = world := by
    simp [h.seen, World.behind]
  have hworld : job.run.stepAt position world = some (run, later.behind world.console) := by
    have hsame := job.run.stepAt_behind position display.shell.world world.console
    rwa [hbehind, hstep] at hsame
  refine ⟨job, run, _, hjob, hworld, ⟨rfl, ?_⟩, rfl⟩
  simp [become, Shell.takeConsole, h.written, Text.unlines, World.behind]

/-- A display with one job, whose workers have taken some steps. -/
structure Follows (display : Display) (first : Run) (origin : World) (job : Job)
    (world : World) : Prop where
  alone : display.shell.jobs.started = [job]
  shows : display.Shows world
  steps : ∃ order : List Nat, first.follow origin (order.map .step) = some (job.run, world)

private theorem Follows.work {first : Run} {origin world : World} {job : Job}
    (h : display.Follows first origin job world) {place position : Nat}
    (hwork : display.work place position = some after) :
    ∃ run later, after.Follows first origin { job with run } later := by
  obtain ⟨other, run, later, hjob, hstep, hshows, hstarted⟩ := h.shows.work hwork
  rw [h.alone] at hjob hstarted
  obtain ⟨rfl, rfl⟩ : place = 0 ∧ job = other := by
    cases place with
    | zero => exact ⟨rfl, Option.some.inj hjob⟩
    | succ place => cases hjob
  obtain ⟨order, hfollow⟩ := h.steps
  refine ⟨run, later, hstarted, hshows, order ++ [position], ?_⟩
  rw [List.map_append, List.map_singleton, Run.follow_concat hfollow]
  exact hstep

/-- Where the pipeline of the job does not race, its end is known. -/
theorem Follows.endsAs {origin world : World} {pipeline : Pipeline} {job : Job}
    (h : display.Follows (.start pipeline) origin job world)
    (hbegins : Begins origin pipeline.verbs (.start pipeline))
    (hquiet : ¬ Races origin pipeline.verbs) :
    display.EndsAs (finalWorld origin pipeline.verbs).files
      (Text.unlines (finalWorld origin pipeline.verbs).console) := by
  refine ⟨by rw [h.shows.seen], fun order after hworks hover => ?_⟩
  induction order generalizing display job world with
  | nil =>
      -- The job is over, so what its workers have done is a whole run of its pipeline.
      obtain rfl : display = after := Option.some.inj hworks
      obtain ⟨taken, hfollow⟩ := h.steps
      have hended := hover job (h.alone ▸ List.mem_singleton_self job)
      obtain ⟨-, -, rfl⟩ := hbegins.outcome hquiet hfollow fun position =>
        Run.stepAt_of_isOver hended position world
      exact ⟨by rw [h.shows.seen], h.shows.written⟩
  | cons first order ih =>
      obtain ⟨next, hwork, hrest⟩ := Option.bind_eq_some_iff.mp hworks
      obtain ⟨run, later, hnext⟩ := h.work hwork
      exact ih hnext hrest

end Display

namespace CommandRun

variable {shell : Shell} {command : Text} {state after : CommandRun}

/-- What is kept by a command in a shell without jobs, when its code is known. -/
def ReportsCode (shell : Shell) (command : Text) (code : Nat) (state : CommandRun) : Prop :=
  match state.phase with
  | .asking => state = start shell command
  | .waiting => code = 0
  | .telling flow => flow.code = code
  | .draining known | .ended known => known = code

private theorem ReportsCode.goes {code : Nat} (hbare : shell.jobs.started = [])
    (hcode : (Dialogue.processLine shell command).2.code = code)
    (h : state.ReportsCode shell command code) (hgoes : state.Goes after) :
    after.ReportsCode shell command code := by
  cases hgoes with
  | @work display next _ phase place position going works =>
      cases phase with
      | asking =>
          obtain rfl : display = { shell } := congrArg CommandRun.display h
          rw [Display.work_of_bare hbare] at works
          cases works
      | ended known => exact absurd rfl (going known)
      | waiting | telling flow | draining known => exact h
  | ask display asked =>
      obtain ⟨rfl, rfl⟩ : display = { shell } ∧ asked = command :=
        ⟨congrArg CommandRun.display h, congrArg CommandRun.command h⟩
      cases hreply : shell.reply? asked with
      | none =>
          obtain ⟨_, _, -, hfinished⟩ := Shell.exists_finishForeground hreply
          exact hcode.symm.trans (Shell.finishForeground?_cases hfinished).1
      | some flow =>
          rw [Shell.processLine_of_reply hreply] at hcode
          exact hcode
  | finish finished => exact (Shell.finishForeground?_cases finished).1.trans (Eq.symm h)
  | tell | release => exact h

/-- What is kept by a command that ends with some files and some text. Only in the
foreground is there a job that the registry does not hold, and what is told after a job
has been started is nothing. -/
def EndsAs (shell : Shell) (command : Text) (files : FileTree) (text : Text)
    (state : CommandRun) : Prop :=
  match state.phase with
  | .asking => state = start shell command
  | .waiting => state.display.EndsAs files text ∧ state.display.marks = [false]
  | .telling flow =>
    (state.display.write flow.told).EndsAs files text ∧
    false ∉ state.display.marks ∧ (flow.told = [] ∨ state.display.marks = [])
  | .draining _ => state.display.EndsAs files text ∧ false ∉ state.display.marks
  | .ended _ => state.display.shell.world.files = files ∧ state.display.written = text

/-- A run whose shell has just taken its command. -/
def taken (shell : Shell) (command : Text) : CommandRun :=
  { display := ({ shell } : Display).become (shell.accept command)
    command
    phase := (shell.reply? command).elim .waiting .telling }

/-- A command that has started nothing is answered at once. -/
theorem endsAs_of_answered {flow : Flow} (hnone : (shell.accept command).jobs.started = [])
    (hreply : shell.reply? command = some flow) :
    (taken shell command).EndsAs shell command (shell.accept command).world.files
      ((({ shell } : Display).become (shell.accept command)).write flow.told).written := by
  let display := ({ shell } : Display).become (shell.accept command)
  have hbound := @Display.endsAs_of_bare (display.write flow.told) hnone rfl
  have hmarks : display.marks = [] := List.map_eq_nil_iff.mpr hnone
  rw [taken, hreply]
  exact ⟨hbound, hmarks ▸ List.not_mem_nil, .inr hmarks⟩

/-- One that has started a job comes to the end of that job's pipeline. -/
theorem endsAs_of_startsOnlyJob {pipeline : Pipeline} {job : Job}
    (hstarts : shell.StartsOnlyJob command pipeline job) (hquietLine : shell.QuietLine command) :
    (taken shell command).EndsAs shell command
      (finalWorld (shell.accept command).world pipeline.verbs).files
      (Text.unlines (finalWorld (shell.accept command).world pipeline.verbs).console) := by
  let display := ({ shell } : Display).become (shell.accept command)
  obtain ⟨asked, files, hrequest, hbuild, hworld⟩ := hstarts.built
  have hfollows : display.Follows (.start pipeline) (shell.accept command).world job
      (shell.accept command).world :=
    ⟨hstarts.alone, ⟨rfl, rfl⟩, [], by rw [hstarts.run]; rfl⟩
  have hbegins : Begins (shell.accept command).world pipeline.verbs (.start pipeline) :=
    hworld ▸ CommandLine.begins_of_build hbuild
  have hquiet : ¬ Races (shell.accept command).world pipeline.verbs :=
    hworld ▸ hquietLine asked job.held hrequest files pipeline hbuild
  have hbound := hfollows.endsAs hbegins hquiet
  have hmarks : display.marks = [job.held] := congrArg (List.map Job.held) hstarts.alone
  rw [taken, hstarts.reply]
  cases hheld : job.held with
  | false => exact ⟨hbound, hheld ▸ hmarks⟩
  | true =>
      have hall : false ∉ display.marks := by simp [hmarks, hheld]
      exact ⟨display.write_nil.symm ▸ hbound, hall, .inl rfl⟩

private theorem exists_bound (hbare : shell.jobs.started = [])
    (hquietLine : shell.QuietLine command) :
    ∃ files text, (taken shell command).EndsAs shell command files text := by
  rcases Shell.accept_of_bare hbare command with
    ⟨hnone, -, flow, hreply⟩ | ⟨pipeline, job, hstarts⟩
  · exact ⟨_, _, endsAs_of_answered hnone hreply⟩
  · exact ⟨_, _, endsAs_of_startsOnlyJob hstarts hquietLine⟩

private theorem EndsAs.goes {files : FileTree} {text : Text} (hbare : shell.jobs.started = [])
    (htaken : (taken shell command).EndsAs shell command files text)
    (h : state.EndsAs shell command files text) (hgoes : state.Goes after) :
    after.EndsAs shell command files text := by
  cases hgoes with
  | @work display next _ phase place position going works =>
      have hmarks := Display.marks_of_work works
      cases phase with
      | asking =>
          obtain rfl : display = { shell } := congrArg CommandRun.display h
          rw [Display.work_of_bare hbare] at works
          cases works
      | waiting =>
          obtain ⟨hbound, hone⟩ := h
          exact ⟨hbound.work works, hmarks.trans hone⟩
      | telling flow =>
          obtain ⟨hbound, hheld, htold | hnone⟩ := h
          · rw [htold, Display.write_nil] at hbound
            refine ⟨?_, hmarks ▸ hheld, .inl htold⟩
            rw [htold, Display.write_nil]
            exact hbound.work works
          · rw [Display.work_of_bare (List.map_eq_nil_iff.mp hnone)] at works
            cases works
      | draining known =>
          obtain ⟨hbound, hheld⟩ := h
          exact ⟨hbound.work works, hmarks ▸ hheld⟩
      | ended known => exact absurd rfl (going known)
  | ask display asked =>
      obtain ⟨rfl, rfl⟩ : display = { shell } ∧ asked = command :=
        ⟨congrArg CommandRun.display h, congrArg CommandRun.command h⟩
      exact htaken
  | finish finished =>
      obtain ⟨hbound, hmarks⟩ := h
      obtain ⟨-, htold, -⟩ := Shell.finishForeground?_cases finished
      obtain ⟨hdone, hnone⟩ := Display.EndsAs.finish hbound hmarks finished
      refine ⟨?_, hnone ▸ List.not_mem_nil, .inl htold⟩
      rw [htold, Display.write_nil]
      exact hdone
  | tell => exact ⟨h.1, h.2.1⟩
  | release released => exact h.1.release h.2 released

/-- The code is the same along every schedule. -/
theorem code_of_follow (hbare : shell.jobs.started = []) {schedule : List Turning} {code : Nat}
    (hfollow : (start shell command).follow schedule = some after)
    (hover : after.phase = .ended code) :
    code = (Dialogue.processLine shell command).2.code := by
  have hstart : (start shell command).ReportsCode shell command
      (Dialogue.processLine shell command).2.code := rfl
  have hreports := follow_induction hstart (fun _ _ hbefore => hbefore.goes hbare rfl) hfollow
  simpa only [ReportsCode, hover] using hreports

/-- So are the files and the text, where the pipeline does not race. -/
theorem exists_outcome (hbare : shell.jobs.started = []) (hquietLine : shell.QuietLine command) :
    ∃ files text, ∀ schedule after code, (start shell command).follow schedule = some after →
      after.phase = .ended code →
        after.display.shell.world.files = files ∧ after.display.written = text := by
  obtain ⟨files, text, htaken⟩ := exists_bound hbare hquietLine
  refine ⟨files, text, fun schedule after code hfollow hover => ?_⟩
  have hstart : (start shell command).EndsAs shell command files text := rfl
  have hbound := follow_induction hstart
    (fun _ _ hbefore => EndsAs.goes hbare htaken hbefore) hfollow
  simpa only [EndsAs, hover] using hbound

end CommandRun

end LineShell
