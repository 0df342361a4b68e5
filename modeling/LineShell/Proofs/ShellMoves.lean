import Mathlib.Data.List.Induction
import LineShell.Shell
import LineShell.Proofs.JobSteps
import LineShell.Proofs.StepWorlds

/-!
A shell at work. It may take further lines while its jobs are going on, and the
workers of all its jobs may take their steps in any order between them. To the
workers it makes no difference under which number a job is held, or whether it
is held at all.
-/

namespace LineShell

/-- What may happen to a shell: it takes a line, or a worker of one of its jobs takes
a step. The job is named by how many were started before it. -/
inductive ShellMove where
  | line (text : Text)
  | work (place position : Nat)
deriving DecidableEq, Repr

namespace Shell

/-- One step of a worker of a job, where it can be taken. -/
def work (shell : Shell) (place position : Nat) : Option Shell :=
  (shell.jobs.work shell.world place position).map fun (jobs, world) =>
    { shell with jobs, world }

def move (shell : Shell) : ShellMove → Option Shell
  | .line text => some (shell.execute text).1
  | .work place position => shell.work place position

/-- The shell after some moves, where they can be made one after the other. -/
def follow (shell : Shell) (moves : List ShellMove) : Option Shell :=
  moves.foldlM move shell

/-- Steps of workers alone, each named by its job and its place in it. -/
def steps (order : List (Nat × Nat)) : List ShellMove :=
  order.map fun (place, position) => .work place position

/-- What the workers of a shell see of it, and of each other. -/
def sight (shell : Shell) : World × List Run :=
  (shell.world, shell.jobs.started.map Job.run)

variable {shell after : Shell}

theorem execute_of_request {line command : Text} {background : Bool}
    (h : request line = .pipeline command background) :
    shell.execute line = shell.runPipeline command background := by
  simp only [execute, h]

theorem runPipeline_of_error {command : Text} {files : FileTree} {error : ShellError}
    (h : CommandLine.build shell.world.directory shell.world.files command =
      (files, .error error)) (background : Bool) :
    shell.runPipeline command background =
      ({ shell with world := { shell.world with files } }, .error error) := by
  simp only [runPipeline, h]

theorem runPipeline_of_ok {command : Text} {files : FileTree} {pipeline : Pipeline}
    (h : CommandLine.build shell.world.directory shell.world.files command =
      (files, .ok pipeline)) :
    shell.runPipeline command false =
        ((({ shell with world := { shell.world with files } } : Shell).runForeground pipeline).1,
         .ok (({ shell with world := { shell.world with files } } : Shell).runForeground
          pipeline).2) ∧
      shell.runPipeline command true =
        ({ shell with
            world := { shell.world with files }
            jobs := (shell.jobs.register (Run.start pipeline)).1 },
         .ok (.background shell.jobs.nextId pipeline.command)) := by
  simp only [runPipeline, h]
  exact ⟨rfl, rfl⟩

theorem follow_append (shell : Shell) (first second : List ShellMove) :
    shell.follow (first ++ second) =
      (shell.follow first).bind fun middle => middle.follow second :=
  List.foldlM_append

/-- What holds of a shell and is kept by every move holds after all moves. -/
theorem follow_induction {motive : List ShellMove → Shell → Prop} (start : motive [] shell)
    (step : ∀ moves before move after, shell.follow moves = some before → motive moves before →
      before.move move = some after → motive (moves ++ [move]) after)
    {moves : List ShellMove} (h : shell.follow moves = some after) : motive moves after := by
  induction moves using List.reverseRecOn generalizing after with
  | nil =>
      obtain rfl : shell = after := by simpa [follow] using h
      exact start
  | append_singleton moves move ih =>
      rw [follow_append] at h
      obtain ⟨before, hbefore, hmove⟩ := Option.bind_eq_some_iff.mp h
      exact step moves before move after hbefore (ih hbefore) (by simpa [follow] using hmove)

/-- The same of steps of the workers alone. -/
theorem steps_induction {motive : Shell → Prop} (start : motive shell)
    (step : ∀ before place position after, motive before →
      before.work place position = some after → motive after)
    {order : List (Nat × Nat)} (h : shell.follow (steps order) = some after) : motive after := by
  induction order generalizing shell with
  | nil =>
      obtain rfl : shell = after := by simpa [follow, steps] using h
      exact start
  | cons first order ih =>
      obtain ⟨next, hfirst, hrest⟩ := Option.bind_eq_some_iff.mp h
      exact ih (step shell _ _ next start hfirst) hrest

/-- A step of a job changes that job's pipeline and the world. -/
theorem work_cases {place position : Nat} (h : shell.work place position = some after) :
    ∃ job run world, shell.jobs.started[place]? = some job ∧
      job.run.stepAt position shell.world = some (run, world) ∧
      after = { shell with
        world
        jobs := { shell.jobs with
          started := shell.jobs.started.set place { job with run } } } := by
  obtain ⟨⟨jobs, world⟩, hwork, rfl⟩ := Option.map_eq_some_iff.mp h
  obtain ⟨job, run, hjob, hstep, rfl⟩ := Jobs.work_cases hwork
  exact ⟨job, run, world, hjob, hstep, rfl⟩

private theorem sight_work {other : Shell} (h : shell.sight = other.sight) (place position : Nat) :
    (shell.work place position).map sight = (other.work place position).map sight := by
  obtain ⟨hworld, hruns⟩ := Prod.mk.inj h
  have hrun : (shell.jobs.started[place]?).map Job.run =
      (other.jobs.started[place]?).map Job.run := by
    rw [← List.getElem?_map, ← List.getElem?_map, hruns]
  rw [work, work, Jobs.work, Jobs.work, hworld]
  cases hjob : shell.jobs.started[place]? with
  | none =>
      have hother : other.jobs.started[place]? = none := by
        rwa [hjob, Option.map_none, eq_comm, Option.map_eq_none_iff] at hrun
      rw [hother]
      rfl
  | some job =>
      obtain ⟨twin, hother, hsame⟩ : ∃ twin, other.jobs.started[place]? = some twin ∧
          twin.run = job.run := by
        rwa [hjob, Option.map_some, eq_comm, Option.map_eq_some_iff] at hrun
      rw [hother]
      simp only [hsame]
      cases job.run.stepAt position other.world with
      | none => rfl
      | some next => simp [sight, List.map_set, hruns]

/-- Shells that the workers cannot tell apart stay so, whatever the order of the
steps. -/
theorem sight_follow {other : Shell} (h : shell.sight = other.sight)
    (order : List (Nat × Nat)) :
    (shell.follow (steps order)).map sight = (other.follow (steps order)).map sight := by
  induction order generalizing shell other with
  | nil => simpa [follow, steps] using h
  | cons first order ih =>
      have hfirst := sight_work h first.1 first.2
      simp only [steps, List.map_cons, follow, List.foldlM_cons, move]
      cases hnext : shell.work first.1 first.2 with
      | none =>
          have hother : other.work first.1 first.2 = none := by
            rwa [hnext, Option.map_none, eq_comm, Option.map_eq_none_iff] at hfirst
          rw [hother]
      | some next =>
          obtain ⟨twin, hother, hsame⟩ : ∃ twin, other.work first.1 first.2 = some twin ∧
              twin.sight = next.sight := by
            rwa [hnext, Option.map_some, eq_comm, Option.map_eq_some_iff] at hfirst
          rw [hother]
          exact ih hsame.symm

/-- The steps of one job alone. -/
theorem follow_alone {before rest : List Job} {job : Job} {next : Run} {later : World}
    {order : List Nat} (hjobs : shell.jobs.started = before ++ job :: rest)
    (h : job.run.follow shell.world (order.map .step) = some (next, later)) :
    shell.follow (steps (order.map fun position => (before.length, position))) =
      some { shell with
        world := later
        jobs := { shell.jobs with started := before ++ { job with run := next } :: rest } } := by
  induction order generalizing shell job with
  | nil =>
      obtain ⟨rfl, rfl⟩ : job.run = next ∧ shell.world = later := by simpa [Run.follow] using h
      simp [follow, steps, ← hjobs]
  | cons position order ih =>
      rw [List.map_cons, Run.follow] at h
      split at h
      · rename_i middle world hmove
        have hstep : job.run.stepAt position shell.world = some (middle, world) := hmove
        have hwork : shell.work before.length position = some { shell with
            world
            jobs := { shell.jobs with
              started := before ++ { job with run := middle } :: rest } } := by
          simp [work, Jobs.work, hjobs, hstep]
        simp only [List.map_cons, steps, follow, List.foldlM_cons, move, hwork]
        exact @ih _ { job with run := middle } rfl h
      · cases h

/-- Some jobs come to their end by steps of their own. -/
theorem follow_settleEach {before rest : List Job}
    (hjobs : shell.jobs.started = before ++ rest) :
    ∃ order, shell.follow (steps order) = some { shell with
      world := (Jobs.settleEach rest shell.world).2
      jobs := { shell.jobs with
        started := before ++ (Jobs.settleEach rest shell.world).1 } } := by
  induction rest generalizing shell before with
  | nil => exact ⟨[], by simp [follow, steps, Jobs.settleEach, ← hjobs]⟩
  | cons job rest ih =>
      obtain ⟨order, hfollow⟩ := job.run.follow_settle shell.world
      simp only [Jobs.settleEach]
      generalize job.run.settle shell.world = settled at hfollow ⊢
      let next : Shell := { shell with
        world := settled.2
        jobs := { shell.jobs with started := before ++ { job with run := settled.1 } :: rest } }
      have hnext : next.jobs.started = (before ++ [{ job with run := settled.1 }]) ++ rest :=
        List.append_cons ..
      obtain ⟨more, hmore⟩ := ih hnext
      refine ⟨order.map (fun position => (before.length, position)) ++ more, ?_⟩
      have hjob := follow_alone hjobs hfollow
      rw [steps] at hjob
      rw [steps, List.map_append, follow_append, hjob]
      refine hmore.trans ?_
      simp [next]

/-- A shell whose jobs have been run to their end has come there by their steps. -/
theorem follow_settle (shell : Shell) :
    ∃ order, shell.follow (steps order) = some shell.settle :=
  follow_settleEach (List.nil_append _).symm

/-- To wait lets go of the jobs, which the workers do not see. -/
theorem sight_waitBackground (shell : Shell) :
    shell.waitBackground.1.sight = shell.settle.sight := by
  simp [sight, waitBackground, settle, Jobs.waitAll]

/-- None of them can take a further step. -/
theorem work_settle (shell : Shell) (place position : Nat) :
    shell.settle.work place position = none := by
  have hsettled := Jobs.forall₂_settleEach shell.jobs.started shell.world
  rw [work, Option.map_eq_none_iff, Jobs.work]
  split
  · rfl
  · rename_i done hdone
    obtain ⟨hplace, rfl⟩ := List.getElem?_eq_some_iff.mp hdone
    have hbefore : place < shell.jobs.started.length := hsettled.length_eq ▸ hplace
    obtain ⟨before, hjob⟩ := hsettled.get hbefore hplace
    have hrun : shell.settle.jobs.started[place].run =
        (shell.jobs.started[place].run.settle before).1 := congrArg Job.run hjob
    rw [Option.map_eq_none_iff, hrun,
      Run.stepAt_eq_none_iff _ (shell.jobs.started[place].run.settle before).2]
    exact Run.stepAt_settle _ before position

end Shell

end LineShell
