import LineShell.Proofs.ShellMoves

/-!
The same line in the foreground and in the background. Both make the same pipeline
and start it in the same world. The one is run to its end at once; the workers of
the other take their steps when they will, among those of earlier jobs, and what
they have left to do is done when the shell waits.
-/

namespace LineShell

/-! Lines and their requests. -/

namespace Shell

/-- A line that asks for a pipeline in the foreground. -/
structure Plain (line : Text) : Prop where
  filled : Text.trim line ≠ []
  unmarked : (Text.trim line).getLast? ≠ some '&'
  notExit : Text.trim line ≠ exitWord
  notJobs : Text.trim line ≠ jobsWord
  notKill : CommandLine.hasWord (Text.trim line) killWord = false

theorem Plain.request {line : Text} (h : Plain line) :
    request line = .pipeline (Text.trim line) false := by
  simp [Shell.request, splitBackground, h.filled, h.unmarked, h.notExit, h.notJobs, h.notKill]

/-- The mark puts the same pipeline in the background. -/
theorem Plain.request_marked {line : Text} (h : Plain line) :
    Shell.request (line ++ " &".toList) = .pipeline (Text.trim line) true := by
  have hfilled : Text.isBlank '&' = false := by decide
  obtain ⟨front, hmarked, hfront⟩ := Text.trim_append_mark hfilled h.filled
  have hmark : line ++ " &".toList = line ++ [' ', '&'] := rfl
  have hexit : front ++ ['&'] ≠ exitWord := by
    intro hsame
    have hlast := congrArg List.getLast? hsame
    simp [exitWord] at hlast
  have hsplit : splitBackground (front ++ ['&']) = (Text.trim line, true) := by
    simp [splitBackground, hfront]
  rw [hmark]
  simp [Shell.request, hmarked, hexit, hsplit, h.filled, h.notJobs, h.notKill]

/-- A line that can be told beforehand: if it is a listing, it makes no new file in the
directory that it lists. -/
def Quiet (shell : Shell) (command : Text) : Prop :=
  ∀ files pipeline,
    CommandLine.build shell.world.directory shell.world.files command = (files, .ok pipeline) →
      ¬ Races { shell.world with files } pipeline.verbs

end Shell

/-! Jobs that have nothing more to do with the world. -/

namespace Run

variable {run after : Run} {world later : World}

/-- Whether no worker can change the world any more. It is so when all have ended, but
workers may also still be passing lines on. -/
def IsIdle (run : Run) : Prop :=
  ∀ worker ∈ run.workers, worker.isLink = true

theorem IsIdle.move {move : Move} (h : run.IsIdle)
    (hmove : run.move world move = some (after, later)) : after.IsIdle ∧ later = world := by
  rcases move_cases hmove with ⟨position, posts, -, rfl, hstep⟩ | ⟨-, -, rfl, rfl⟩
  · obtain ⟨post, rest, next, wiring, hdrop, hpost, -, hworkers⟩ := Post.single_of_stepAt hstep
    have hthere : post.worker ∈ run.workers :=
      List.mem_map_of_mem (List.mem_of_getElem? (Post.getElem?_of_drop hdrop))
    obtain ⟨hlink, hworld⟩ := Worker.isLink_of_step hpost (h _ hthere)
    refine ⟨fun worker hworker => ?_, hworld⟩
    rw [workers, hworkers] at hworker
    rcases List.mem_or_eq_of_mem_set hworker with hold | rfl
    · exact h worker hold
    · exact hlink
  · exact ⟨h, rfl⟩

theorem IsIdle.settle (h : run.IsIdle) (world : World) : (run.settle world).2 = world := by
  obtain ⟨order, hfollow⟩ := run.follow_settle world
  refine (follow_induction (motive := fun _ after later => after.IsIdle ∧ later = world)
    ⟨h, rfl⟩ ?_ hfollow).2
  rintro _ before _ _ _ _ _ ⟨hidle, rfl⟩ hmove
  exact hidle.move hmove

private theorem wholeResult_of_stepAt {position : Nat}
    (h : run.stepAt position world = some (after, later)) :
    after.wholeResult = run.wholeResult := by
  have hmove : run.move world (.step position) = some (after, later) := h
  have hfollow : run.follow world [.step position] = some (after, later) := by
    rw [follow, hmove]; rfl
  rw [wholeResult, wholeResult, length_of_follow hfollow, exitRequested_of_follow hfollow]

end Run

/-- Whether all jobs that were ever started have nothing more to do with the world. -/
def Jobs.IsIdle (jobs : Jobs) : Prop :=
  ∀ job ∈ jobs.started, job.run.IsIdle

private theorem Jobs.settleEach_of_idle {jobs : List Job} (h : ∀ job ∈ jobs, job.run.IsIdle)
    (world : World) : (settleEach jobs world).2 = world := by
  induction jobs with
  | nil => rfl
  | cons job rest ih =>
      have hrest := ih fun other hother => h other (List.mem_cons_of_mem _ hother)
      simp only [settleEach, (h job List.mem_cons_self).settle world, hrest]

/-! A shell with one job. -/

namespace Shell

variable {shell after : Shell} {before : List Job} {id : Nat} {run : Run} {origin : World}
  {first : Run}

/-- The registry of a shell holds one job alone, and that was started last. -/
structure HoldsOnly (shell : Shell) (before : List Job) (id : Nat) (run : Run) : Prop where
  started : shell.jobs.started = before ++ [{ id := id, run := run }]
  released : ∀ job ∈ before, job.held = false

/-- A worker of an earlier job takes a step, or one of the job does. -/
theorem HoldsOnly.work (h : shell.HoldsOnly before id run) {place position : Nat}
    (hwork : shell.work place position = some after) :
    (∃ job next, job ∈ before ∧
      job.run.stepAt position shell.world = some (next, after.world) ∧
      after.HoldsOnly (before.set place { job with run := next }) id run) ∨
    ∃ next, run.stepAt position shell.world = some (next, after.world) ∧
      after.HoldsOnly before id next := by
  obtain ⟨job, next, world, hjob, hstep, rfl⟩ := work_cases hwork
  rw [h.started] at hjob
  rcases Nat.lt_trichotomy place before.length with hearly | rfl | hlate
  · left
    rw [List.getElem?_append_left hearly] at hjob
    have hmem : job ∈ before := List.mem_of_getElem? hjob
    refine ⟨job, next, hmem, hstep, ?_, ?_⟩
    · simp only [h.started, List.set_append_left _ _ hearly]
    · intro other hother
      rcases List.mem_or_eq_of_mem_set hother with hold | rfl
      · exact h.released other hold
      · exact h.released job hmem
  · right
    obtain rfl : { id := id, run := run } = job := by simpa using hjob
    refine ⟨next, hstep, ?_, h.released⟩
    simp only [h.started, List.set_append_right _ _ (Nat.le_refl _), Nat.sub_self,
      List.set_cons_zero]
  · have hplace := (List.getElem?_eq_some_iff.mp hjob).1
    rw [List.length_append, List.length_singleton] at hplace
    omega

/-- What holds of the one job of a shell while it is at work. Where the jobs before it
were idle at first, only its own steps have changed the world. -/
structure OnlyJobAtWork (idle : Prop) (origin : World) (first : Run) (id : Nat) (shell : Shell)
    (before : List Job) (run : Run) : Prop where
  holds : shell.HoldsOnly before id run
  going : run.AtWork
  whole : run.wholeResult = first.wholeResult
  alone : idle → (∀ job ∈ before, job.run.IsIdle) ∧
    ∃ order : List Nat, first.follow origin (order.map .step) = some (run, shell.world)

private theorem OnlyJobAtWork.work {idle : Prop}
    (h : OnlyJobAtWork idle origin first id shell before run)
    {place position : Nat} (hwork : shell.work place position = some after) :
    ∃ before run, OnlyJobAtWork idle origin first id after before run := by
  rcases h.holds.work hwork with ⟨job, next, hjob, hstep, hholds⟩ | ⟨next, hstep, hholds⟩
  · refine ⟨_, run, hholds, h.going, h.whole, fun hidle => ?_⟩
    obtain ⟨hjobs, order, hfollow⟩ := h.alone hidle
    have hmove : job.run.move shell.world (.step position) = some (next, after.world) := hstep
    obtain ⟨hnext, hworld⟩ := (hjobs job hjob).move hmove
    refine ⟨fun other hother => ?_, order, hworld ▸ hfollow⟩
    rcases List.mem_or_eq_of_mem_set hother with hold | rfl
    · exact hjobs other hold
    · exact hnext
  · refine ⟨before, next, hholds, h.going.step hstep,
      (Run.wholeResult_of_stepAt hstep).trans h.whole, fun hidle => ?_⟩
    obtain ⟨hjobs, order, hfollow⟩ := h.alone hidle
    refine ⟨hjobs, order ++ [position], ?_⟩
    rw [List.map_append, List.map_singleton, Run.follow_concat hfollow]
    exact hstep

/-- From its start on, whatever the order of the steps. -/
theorem onlyJobAtWork_of_build {command : Text} {files : FileTree} {pipeline : Pipeline}
    (hbuild : CommandLine.build shell.world.directory shell.world.files command =
      (files, .ok pipeline)) (hempty : shell.jobs.held = []) {order : List (Nat × Nat)}
    (hfollow : ({ shell with
      world := { shell.world with files }
      jobs := (shell.jobs.register (Run.start pipeline)).1 } : Shell).follow (steps order) =
        some after) :
    ∃ before run, OnlyJobAtWork shell.jobs.IsIdle { shell.world with files } (Run.start pipeline)
      shell.jobs.nextId after before run := by
  refine steps_induction (motive := fun after => ∃ before run, OnlyJobAtWork shell.jobs.IsIdle
    { shell.world with files } (Run.start pipeline) shell.jobs.nextId after before run)
    ?_ ?_ hfollow
  · refine ⟨shell.jobs.started, Run.start pipeline, ⟨rfl, ?_⟩, .start hbuild, rfl,
      fun hidle => ⟨hidle, [], rfl⟩⟩
    intro job hjob
    simpa using List.filter_eq_nil_iff.mp hempty job hjob
  · rintro _ _ _ _ ⟨_, _, honly⟩ hwork
    exact honly.work hwork

/-- A shell that waits for its one job answers with its result, whatever is still to be
done. -/
theorem OnlyJobAtWork.waitBackground {idle : Prop}
    (h : OnlyJobAtWork idle origin first id shell before run) :
    shell.waitBackground.2 = [(id, first.wholeResult)] ∧
      (idle → ∃ (order : List Nat) (last : Run),
        first.follow origin (order.map .step) = some (last, shell.waitBackground.1.world) ∧
        ∀ position, last.stepAt position shell.waitBackground.1.world = none) := by
  obtain ⟨hsound, hgoing⟩ := h.going.sound
  have hheld : shell.jobs.started.filter Job.held = [{ id := id, run := run }] := by
    rw [h.holds.started, List.filter_append,
      List.filter_eq_nil_iff.mpr fun job hjob => by simp [h.holds.released job hjob]]
    rfl
  constructor
  · have hsounds : ∀ job ∈ shell.jobs.started.filter Job.held, job.run.Sound := by
      simpa [hheld] using hsound
    have hall : ∀ job ∈ shell.jobs.started.filter Job.held, job.run.cancelled = false := by
      simpa [hheld] using hgoing
    have hresults := Jobs.results_settleEach hsounds hall shell.world
    rw [hheld] at hresults
    refine hresults.trans ?_
    simp [h.whole]
  · intro hidle
    obtain ⟨hjobs, order, hfollow⟩ := h.alone hidle
    have hworld : shell.waitBackground.1.world = (run.settle shell.world).2 := by
      simp only [Shell.waitBackground, Jobs.waitAll, Jobs.settle, h.holds.started,
        Jobs.settleEach_append, Jobs.settleEach_of_idle hjobs, Jobs.settleEach]
    obtain ⟨more, hmore⟩ := run.follow_settle shell.world
    refine ⟨order ++ more, (run.settle shell.world).1, ?_, ?_⟩
    · rw [List.map_append, Run.follow_append, hfollow, hworld]
      exact hmore
    · rw [hworld]
      exact run.stepAt_settle shell.world

/-- A pipeline that was started in the background comes to the end that it has when it
is run at once. -/
theorem waits_of_build {command : Text} {files : FileTree} {pipeline : Pipeline}
    (hbuild : CommandLine.build shell.world.directory shell.world.files command =
      (files, .ok pipeline)) (hraces : ¬ Races { shell.world with files } pipeline.verbs)
    (hempty : shell.jobs.held = []) {order : List (Nat × Nat)}
    (hfollow : (shell.runPipeline command true).1.follow (steps order) = some after) :
    after.waitBackground.2 =
        [(shell.jobs.nextId,
          ((Run.start pipeline).settle { shell.world with files }).1.result)] ∧
      (shell.jobs.IsIdle → after.waitBackground.1.world =
        ((Run.start pipeline).settle { shell.world with files }).2) := by
  have hbegins : Begins { shell.world with files } pipeline.verbs (Run.start pipeline) :=
    CommandLine.begins_of_build hbuild
  obtain ⟨hsettled, hlater⟩ := hbegins.settle hraces
  rw [(runPipeline_of_ok hbuild).2] at hfollow
  obtain ⟨before, run, honly⟩ := onlyJobAtWork_of_build hbuild hempty hfollow
  obtain ⟨hresults, hworld⟩ := honly.waitBackground
  have hresult : ((Run.start pipeline).settle { shell.world with files }).1.result =
      (Run.start pipeline).wholeResult := by
    rw [hsettled, Run.wholeResult, hbegins.length]
  refine ⟨hresult ▸ hresults, fun hidle => ?_⟩
  obtain ⟨done, last, hdone, hstuck⟩ := hworld hidle
  exact (hbegins.outcome hraces hdone hstuck).2.2.trans hlater.symm

/-- A pipeline in the foreground, before the first step of any of its workers: its
workers are at work beside all others, and the registry does not hold it. -/
def enterForeground (shell : Shell) (pipeline : Pipeline) : Shell :=
  { shell with
    jobs := { shell.jobs with
      started := shell.jobs.started ++
        [{ id := shell.jobs.nextId, run := Run.start pipeline, held := false }] } }

/-- Run at once, a pipeline in the foreground is one whose workers take all of their
steps before any other worker takes one. -/
theorem follow_enterForeground (shell : Shell) (pipeline : Pipeline) :
    ∃ (order : List (Nat × Nat)) (after : Shell),
      (shell.enterForeground pipeline).follow (steps order) = some after ∧
      after.world = (shell.runForeground pipeline).1.world := by
  obtain ⟨order, hfollow⟩ := (Run.start pipeline).follow_settle shell.world
  have hjobs : (shell.enterForeground pipeline).jobs.started = shell.jobs.started ++
      [{ id := shell.jobs.nextId, run := Run.start pipeline, held := false }] := rfl
  exact ⟨_, _, follow_alone hjobs hfollow, rfl⟩

/-- Where the registry is empty, a line is refused in the background just as in the
foreground, or it comes to the same end: the foreground answers with the result
that the shell is given when it waits, whatever the order of the steps before
that, and the world is the same then, unless workers of earlier jobs still have
something to do with it. Where they have, every order of all steps is one of the
foreground as well. When the background answers, no worker has taken a step. -/
theorem background_agrees {shell : Shell} {line : Text} (hline : Plain line)
    (hempty : shell.jobs.held = []) (hquiet : shell.Quiet (Text.trim line)) :
    (∃ error, (shell.execute line).2 = .error error ∧
      shell.execute (line ++ " &".toList) = shell.execute line ∧
      (shell.execute line).1.jobs = shell.jobs) ∨
    ∃ (files : FileTree) (pipeline : Pipeline) (result : RunResult) (later : World),
      CommandLine.build shell.world.directory shell.world.files (Text.trim line) =
        (files, .ok pipeline) ∧
      shell.execute line =
        ({ shell with world := later },
         .ok (if result.exitRequested then .exit else .completed result)) ∧
      (∀ (order : List Nat) (after : Run) (world : World),
        (Run.start pipeline).follow { shell.world with files } (order.map .step) =
            some (after, world) →
          (∀ position, after.stepAt position world = none) →
            after.result = result ∧ world = later) ∧
      (shell.execute (line ++ " &".toList)).2 =
        .ok (.background shell.jobs.nextId (Text.trim line)) ∧
      (shell.execute (line ++ " &".toList)).1.world = { shell.world with files } ∧
      (∀ order,
        ((shell.execute (line ++ " &".toList)).1.follow (steps order)).map sight =
          ((({ shell with world := { shell.world with files } } : Shell).enterForeground
            pipeline).follow (steps order)).map sight) ∧
      (∃ order after,
        (({ shell with world := { shell.world with files } } : Shell).enterForeground
            pipeline).follow (steps order) = some after ∧
          after.world = later) ∧
      ∀ order after,
        (shell.execute (line ++ " &".toList)).1.follow (steps order) = some after →
          after.waitBackground.2 = [(shell.jobs.nextId, result)] ∧
          (shell.jobs.IsIdle → after.waitBackground.1.world = later) := by
  have hforeground : shell.execute line = shell.runPipeline (Text.trim line) false :=
    execute_of_request hline.request
  have hmarked : shell.execute (line ++ " &".toList) = shell.runPipeline (Text.trim line) true :=
    execute_of_request hline.request_marked
  obtain ⟨files, made, hbuild⟩ : ∃ files made,
      CommandLine.build shell.world.directory shell.world.files (Text.trim line) =
        (files, made) := ⟨_, _, rfl⟩
  cases made with
  | error error =>
      left
      rw [hforeground, hmarked, runPipeline_of_error hbuild, runPipeline_of_error hbuild]
      exact ⟨error, rfl, rfl, rfl⟩
  | ok pipeline =>
      right
      have hcommand : pipeline.command = Text.trim line := by
        rw [((CommandLine.build_eq_ok_iff ..).mp hbuild).2, Text.trim_trim]
      have hbegins : Begins { shell.world with files } pipeline.verbs (Run.start pipeline) :=
        CommandLine.begins_of_build hbuild
      have hraces := hquiet files pipeline hbuild
      refine ⟨files, pipeline, ((Run.start pipeline).settle { shell.world with files }).1.result,
        ((Run.start pipeline).settle { shell.world with files }).2, hbuild, ?_, ?_, ?_, ?_, ?_,
        follow_enterForeground _ pipeline, ?_⟩
      · rw [hforeground, (runPipeline_of_ok hbuild).1]
        rfl
      · intro order after world hfollow hstuck
        obtain ⟨-, hresult, hworld⟩ := hbegins.outcome hraces hfollow hstuck
        obtain ⟨hsettled, hlater⟩ := hbegins.settle hraces
        exact ⟨hresult.trans hsettled.symm, hworld.trans hlater.symm⟩
      · rw [hmarked, (runPipeline_of_ok hbuild).2, hcommand]
      · rw [hmarked, (runPipeline_of_ok hbuild).2]
      · intro order
        rw [hmarked, (runPipeline_of_ok hbuild).2]
        exact sight_follow (by simp [sight, enterForeground, Jobs.register]) order
      · intro order after hfollow
        rw [hmarked] at hfollow
        exact waits_of_build hbuild hraces hempty hfollow

end Shell

namespace Sample

/-- A shell that has the small file tree, and no jobs. -/
def shell : Shell :=
  { name := "shell".toList, world := { files := tree, directory := "/".toList } }

private theorem trim_line : Text.trim line = line := by
  decide +kernel

private theorem build_trimmed :
    CommandLine.build shell.world.directory shell.world.files (Text.trim line) =
      (world.files, .ok pipeline) := by
  rw [trim_line]
  exact build_line

private theorem quiet : shell.Quiet (Text.trim line) := by
  intro files made hbuild
  rw [build_trimmed] at hbuild
  obtain rfl : pipeline = made := Except.ok.inj (Prod.mk.inj hbuild).2
  rintro ⟨path, place, hlists, -⟩
  cases hlists

private theorem plain : Shell.Plain line := by
  refine ⟨?_, ?_, ?_, ?_, ?_⟩ <;> rw [trim_line] <;> decide +kernel

end Sample

theorem Shell.background_agrees_sample :
    Plain Sample.line ∧ Sample.shell.jobs.held = [] ∧ Sample.shell.Quiet (Text.trim Sample.line) ∧
      ∃ result : RunResult, ∀ order after,
        (Sample.shell.execute (Sample.line ++ " &".toList)).1.follow (steps order) = some after →
          after.waitBackground.2 = [(1, result)] ∧
          after.waitBackground.1.world = (Sample.shell.execute Sample.line).1.world := by
  refine ⟨Sample.plain, rfl, Sample.quiet, ?_⟩
  rcases background_agrees Sample.plain rfl Sample.quiet with
    ⟨error, hrefused, -⟩ | ⟨files, pipeline, result, later, -, hforeground, -, -, -, -, -, hwaits⟩
  · rw [execute_of_request Sample.plain.request,
      (runPipeline_of_ok Sample.build_trimmed).1] at hrefused
    cases hrefused
  · refine ⟨result, fun order after hfollow => ?_⟩
    obtain ⟨hresults, hworld⟩ := hwaits order after hfollow
    exact ⟨hresults, by rw [hforeground, hworld nofun]⟩

end LineShell
