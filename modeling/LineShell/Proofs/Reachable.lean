import LineShell.Proofs.Background

/-!
All that a shell can come to. It takes lines, its user kills jobs and waits for them,
and the workers of its pipelines take their steps in between, in any order, those of
a pipeline in the foreground among those of the jobs. What the shell does at once
when it runs a line, or when it waits, is one of the ways in which this can go.
-/

namespace LineShell

/-- The jobs when the registry has let go of them, as it does when they are waited
for. Their workers go on. -/
def Jobs.letGo (jobs : Jobs) : Jobs :=
  { jobs with started := jobs.started.map fun job => { job with held := false } }

namespace Shell

/-- The shell when it has taken a line and none of the line's workers has taken a step
yet. -/
def accept (shell : Shell) (text : Text) : Shell :=
  match request text with
  | .pipeline command false =>
    match CommandLine.build shell.world.directory shell.world.files command with
    | (files, .ok pipeline) =>
      ({ shell with world := { shell.world with files } } : Shell).enterForeground pipeline
    | (files, .error _) => { shell with world := { shell.world with files } }
  | _ => (shell.execute text).1

/-- What may happen next to a shell. A pipeline in the foreground is among the jobs that
were started, though the registry does not hold it, until it has come to its end. -/
inductive Goes : Shell → Shell → Prop
  | line (shell : Shell) (text : Text) : Goes shell (shell.accept text)
  | work {shell next : Shell} {place position : Nat}
      (goes : shell.work place position = some next) : Goes shell next
  | kill (shell : Shell) (position : Nat) :
      Goes shell { shell with jobs := (shell.jobs.kill position).1 }
  | wait (shell : Shell) : Goes shell { shell with jobs := shell.jobs.letGo }
  | dismiss {shell : Shell} {before rest : List Job} {job : Job}
      (started : shell.jobs.started = before ++ job :: rest)
      (ended : ∀ position, job.run.stepAt position shell.world = none) :
      Goes shell { shell with jobs := { shell.jobs with started := before ++ rest } }

/-- The worker at a position of a job. -/
def worker? (shell : Shell) (place position : Nat) : Option Worker :=
  (shell.jobs.started[place]?).bind fun job => job.run.workers[position]?

/-- The shells that a shell can come to. To go up a worker first asks for the directory
and then sets the one above, so it may set what was above an earlier one. -/
inductive Reaches (start : Shell) : Shell → Prop
  | start : Reaches start start
  | goes {shell next : Shell} (before : Reaches start shell) (goes : shell.Goes next) :
      Reaches start next
  | late {shell next asked : Shell} {place position : Nat} {directory : Text}
      (before : Reaches start shell) (earlier : Reaches start asked)
      (climbs : shell.worker? place position = some (.running (.fresh (.cd .up))))
      (work : shell.work place position = some next)
      (above : Path.parent? asked.world.directory = some directory) :
      Reaches start { next with world := { next.world with directory } }

variable {start shell after : Shell}

private theorem Reaches.steps (h : start.Reaches shell) {order : List (Nat × Nat)}
    (hfollow : shell.follow (Shell.steps order) = some after) : start.Reaches after := by
  refine steps_induction (motive := start.Reaches) h ?_ hfollow
  intro _ _ _ _ hbefore hwork
  exact hbefore.goes (.work hwork)

/-- A pipeline that was run to its end at once has been at work like any other. -/
theorem Reaches.runForeground {pipeline : Pipeline}
    (h : start.Reaches (shell.enterForeground pipeline)) :
    start.Reaches (shell.runForeground pipeline).1 := by
  obtain ⟨order, hfollow⟩ := (Run.start pipeline).follow_settle shell.world
  have hjobs : (shell.enterForeground pipeline).jobs.started = shell.jobs.started ++
      [{ id := shell.jobs.nextId, run := Run.start pipeline, held := false }] := rfl
  have hended := (Run.start pipeline).stepAt_settle shell.world
  have hdone := (h.steps (follow_alone hjobs hfollow)).goes (.dismiss rfl hended)
  rwa [List.append_nil] at hdone

theorem Reaches.execute (h : start.Reaches shell) (text : Text) :
    start.Reaches (shell.execute text).1 := by
  have hline : start.Reaches (shell.accept text) := h.goes (.line shell text)
  unfold accept at hline
  split at hline
  · rename_i command hrequest
    rw [execute_of_request hrequest]
    split at hline
    · rename_i files pipeline hbuild
      rw [(runPipeline_of_ok hbuild).1]
      exact hline.runForeground
    · rename_i files error hbuild
      rwa [runPipeline_of_error hbuild]
  · exact hline

/-- To wait is to let the jobs go and to see them come to their end. -/
theorem Reaches.waitBackground (h : start.Reaches shell) :
    start.Reaches shell.waitBackground.1 := by
  obtain ⟨order, hfollow⟩ := shell.follow_settle
  exact (h.steps hfollow).goes (.wait shell.settle)

/-- A worker that takes a step is at some position of a job. It alone changes, and the
world becomes what it makes of it. -/
theorem worker_of_work {place position : Nat} (h : shell.work place position = some after) :
    ∃ worker next, shell.worker? place position = some worker ∧
      (∃ wiring rewired, worker.step wiring shell.world = some (next, rewired, after.world)) ∧
      ∀ job ∈ after.jobs.started, ∀ other ∈ job.run.workers,
        other = next ∨ ∃ job ∈ shell.jobs.started, other ∈ job.run.workers := by
  obtain ⟨job, run, world, hjob, hstep, rfl⟩ := work_cases h
  obtain ⟨worker, next, hworker, hworkers, hone, -⟩ := Run.stepAt_elsewhere hstep
  refine ⟨worker, next, by simp [worker?, hjob, hworker], hone, ?_⟩
  intro later hlater other hother
  rcases List.mem_or_eq_of_mem_set hlater with hold | rfl
  · exact .inr ⟨later, hold, hother⟩
  · rw [hworkers] at hother
    rcases List.mem_or_eq_of_mem_set hother with hold | rfl
    · exact .inr ⟨job, List.mem_of_getElem? hjob, hold⟩
    · exact .inl rfl

end Shell

end LineShell
