import LineShell.Proofs.CanonicalPaths
import LineShell.Proofs.Reachable

/-!
The working directory of a shell that began in an absolute, canonical one. Paths are
resolved when a line is made, and the workers that hold them may begin much later,
when the directory is another; still every directory that the shell comes to is
absolute and canonical, and only the worker of a `cd` leads from one to another.
-/

namespace LineShell

/-- The path that a verb holds. -/
def Verb.path? : Verb → Option Text
  | .cat path | .redirect path | .cd (.to path) => some path
  | _ => none

/-- If a verb holds a path, it is absolute and canonical. -/
def Verb.IsCanonical (verb : Verb) : Prop :=
  ∀ path, verb.path? = some path → Path.IsCanonical path

/-! Paths when a line is made. -/

namespace CommandLine

variable {directory : Text} {tree : FileTree}

/-- What is resolved from an absolute directory may be held. -/
theorem isCanonical_of_resolved {verb : Verb} (hdirectory : Path.isAbsolute directory = true)
    (h : ∀ path, verb.path? = some path → ∃ argument, path = Path.resolve directory argument) :
    verb.IsCanonical := by
  intro path hpath
  obtain ⟨argument, rfl⟩ := h path hpath
  exact Path.isCanonical_resolve hdirectory argument

private theorem SourceCommand.resolved {command path : Text} {verb : Verb}
    (h : SourceCommand directory tree command verb) (hpath : verb.path? = some path) :
    ∃ argument, path = Path.resolve directory argument := by
  cases h with
  | cat => exact ⟨_, (Option.some.inj hpath).symm⟩
  | _ => cases hpath

private theorem SolitaryCommand.resolved {command path : Text} {verb : Verb}
    (h : SolitaryCommand directory tree command verb) (hpath : verb.path? = some path) :
    ∃ argument, path = Path.resolve directory argument := by
  cases h with
  | into => exact ⟨_, (Option.some.inj hpath).symm⟩
  | _ => cases hpath

private theorem FilterCommand.path?_eq_none {command : Text} {verb : Verb}
    (h : FilterCommand command verb) : verb.path? = none := by
  cases h <;> rfl

private theorem Ending.resolved {line user path : Text} {cleared : FileTree} {last : Text × Verb}
    (h : Ending directory tree line user cleared last) (hpath : last.2.path? = some path) :
    ∃ argument, path = Path.resolve directory argument := by
  cases h with
  | print => cases hpath
  | redirect => exact ⟨_, (Option.some.inj hpath).symm⟩

private theorem Makes.resolved {piece path : Text} {command : Text × Verb}
    (h : Makes directory tree piece command) (hpath : command.2.path? = some path) :
    ∃ argument, path = Path.resolve directory argument := by
  rcases h.class with hclass | hclass | hclass | ⟨rest, -, hverb⟩
  · exact hclass.resolved hpath
  · rw [hclass.path?_eq_none] at hpath
    cases hpath
  · exact hclass.resolved hpath
  · rw [hverb] at hpath
    exact ⟨_, (Option.some.inj hpath).symm⟩

/-- The paths of an accepted line have been resolved from its arguments. -/
theorem Accepted.resolved {line path : Text} {cleared : FileTree} {stages : List Stage}
    (h : Accepted directory tree line cleared stages) {verb : Verb}
    (hverb : verb ∈ stages.map Stage.verb) (hpath : verb.path? = some path) :
    ∃ argument, path = Path.resolve directory argument := by
  cases h with
  | solitary _ _ _ hcommand =>
      rw [Stage.map_verb_rowFrom] at hverb
      obtain rfl := List.mem_singleton.mp hverb
      exact hcommand.resolved hpath
  | row hending _ _ hsource hfilters =>
      rw [Stage.map_verb_rowFrom, List.map_append, List.map_cons] at hverb
      rcases List.mem_append.mp hverb with hfront | hlast
      · rcases List.mem_cons.mp hfront with rfl | hfilter
        · exact hsource.resolved hpath
        · obtain ⟨filter, hmem, rfl⟩ := List.mem_map.mp hfilter
          rw [(filterCommand_of_mem hfilters filter hmem).path?_eq_none] at hpath
          cases hpath
      · obtain rfl := List.mem_singleton.mp hlast
        exact hending.resolved hpath

/-! Stages, also those of a line that is refused afterwards. -/

private theorem isCanonical_of_makeStage {piece : Text} {stage : Stage}
    (hdirectory : Path.isAbsolute directory = true)
    (h : makeStage directory tree piece = .ok stage) : stage.verb.IsCanonical := by
  obtain ⟨command, rfl, hmakes⟩ := makeStage_eq_ok_iff.mp h
  exact isCanonical_of_resolved hdirectory fun _ hpath => hmakes.resolved hpath

private theorem isCanonical_of_makeEnding {redirect : Option Text} {stage : Stage}
    (hdirectory : Path.isAbsolute directory = true)
    (h : makeEnding directory redirect = .ok stage) : stage.verb.IsCanonical := by
  refine isCanonical_of_resolved hdirectory fun path hpath => ?_
  cases redirect with
  | none =>
      obtain rfl := Except.ok.inj h
      cases hpath
  | some text =>
      cases harg : argument (Text.trim text) with
      | error error => simp [makeEnding, makeRedirect, harg, bind, Except.bind] at h
      | ok argument =>
          simp only [makeEnding, makeRedirect, harg, bind, Except.bind, Except.ok.injEq] at h
          subst h
          exact ⟨argument, (Option.some.inj hpath).symm⟩

private theorem isCanonical_of_build {line : Text} {files : FileTree} {pipeline : Pipeline}
    (hdirectory : Path.isAbsolute directory = true)
    (h : build directory tree line = (files, .ok pipeline)) :
    ∀ stage ∈ pipeline.stages, stage.verb.IsCanonical := fun _ hstage =>
  isCanonical_of_resolved hdirectory fun _ hpath =>
    (accepted_of_build h).1.resolved (List.mem_map_of_mem hstage) hpath

end CommandLine

/-! What a step does to the working directory. -/

private theorem Worker.world_of_cd {change : DirectoryChange} {next : Worker}
    {wiring after : Wiring}
    {world later : World}
    (h : (running (.fresh (.cd change))).step wiring world = some (next, after, later)) :
    later = world.changeDirectory change := by
  cases goes_of_step h with
  | work hbody => cases hbody with | begin => rfl

/-- Only a `cd` that begins changes the directory. -/
theorem Worker.directory_of_step {worker next : Worker} {wiring after : Wiring}
    {world later : World} (h : worker.step wiring world = some (next, after, later)) :
    (∃ change, worker = .running (.fresh (.cd change)) ∧ later = world.changeDirectory change) ∨
      later.directory = world.directory := by
  cases goes_of_step h with
  | work hbody =>
      cases hbody with
      | begin verb =>
          cases verb with
          | cd change => exact .inl ⟨change, rfl, world_of_cd h⟩
          | redirect path =>
              right
              simp only [Body.start]
              split <;> rfl
          | _ => exact .inr rfl
      | write line reader => cases reader <;> exact .inr rfl
      | _ => exact .inr rfl
  | _ => exact .inr rfl

/-- Going up from a canonical directory is the same as resolving `..`. -/
theorem World.directory_up {world : World} (h : Path.IsCanonical world.directory) :
    (world.changeDirectory .up).directory = Path.resolve world.directory Path.above := by
  rw [← Path.parent?_getD_eq_resolve h]
  simp only [changeDirectory]
  split <;> rename_i hparent <;> rw [hparent] <;> rfl

private theorem World.isCanonical_changeDirectory {world : World} {change : DirectoryChange}
    (h : Path.IsCanonical world.directory) (hchange : (Verb.cd change).IsCanonical) :
    Path.IsCanonical (world.changeDirectory change).directory := by
  rcases change with _ | _ | path
  · exact h
  · rw [directory_up h]
    exact Path.isCanonical_resolve h.isAbsolute _
  · exact hchange path rfl

/-! What is kept by everything that may happen to a shell. -/

/-- No worker of the jobs after has come from anywhere but the jobs before. -/
def Jobs.KeepsWorkers (jobs after : Jobs) : Prop :=
  ∀ job ∈ after.started, ∃ old ∈ jobs.started, job.run.workers = old.run.workers

private theorem Jobs.keepsWorkers_prune (jobs : Jobs) : jobs.KeepsWorkers jobs.prune := by
  intro job hjob
  obtain ⟨old, hold, rfl⟩ := List.mem_map.mp hjob
  refine ⟨old, hold, ?_⟩
  split <;> rfl

private theorem Jobs.keepsWorkers_kill (jobs : Jobs) (position : Nat) :
    jobs.KeepsWorkers (jobs.kill position).1 := by
  simp only [kill]
  split
  · exact jobs.keepsWorkers_prune
  · split
    · exact jobs.keepsWorkers_prune
    · intro job hjob
      obtain ⟨pruned, hpruned, rfl⟩ := List.mem_map.mp hjob
      obtain ⟨old, hold, hworkers⟩ := jobs.keepsWorkers_prune pruned hpruned
      refine ⟨old, hold, ?_⟩
      rw [← hworkers]
      split <;> rfl

namespace Shell

variable {start shell next : Shell}

/-- To take a line is to look after the files and the jobs. No worker is new, or the
pipeline of the line has joined the jobs. -/
theorem accept_cases (shell : Shell) (text : Text) :
    ∃ files jobs,
      shell.accept text = { shell with world := { shell.world with files }, jobs } ∧
      (shell.jobs.KeepsWorkers jobs ∨ ∃ command pipeline job,
        CommandLine.build shell.world.directory shell.world.files command =
          (files, .ok pipeline) ∧
        job.run = Run.start pipeline ∧ jobs.started = shell.jobs.started ++ [job]) := by
  have hsame : shell.jobs.KeepsWorkers shell.jobs := fun job hjob => ⟨job, hjob, rfl⟩
  cases hrequest : request text with
  | pipeline command background =>
      rcases hbuild : CommandLine.build shell.world.directory shell.world.files command with
        ⟨files, error | pipeline⟩
      · refine ⟨files, shell.jobs, ?_, .inl hsame⟩
        cases background with
        | true =>
            simp only [accept, hrequest, execute_of_request hrequest, runPipeline_of_error hbuild]
        | false => simp only [accept, hrequest, hbuild]
      · cases background with
        | true =>
            simp only [accept, hrequest, execute_of_request hrequest, (runPipeline_of_ok hbuild).2]
            exact ⟨files, _, rfl, .inr ⟨command, pipeline, _, hbuild, rfl, rfl⟩⟩
        | false =>
            simp only [accept, hrequest, hbuild]
            exact ⟨files, _, rfl, .inr ⟨command, pipeline, _, hbuild, rfl, rfl⟩⟩
  | jobs =>
      simp only [accept, hrequest, execute]
      exact ⟨_, _, rfl, .inl shell.jobs.keepsWorkers_prune⟩
  | kill index =>
      simp only [accept, hrequest, execute, Shell.kill]
      split
      · exact ⟨_, _, rfl, .inl hsame⟩
      · exact ⟨_, _, rfl, .inl (shell.jobs.keepsWorkers_kill _)⟩
  | _ =>
      simp only [accept, hrequest, execute]
      exact ⟨_, _, rfl, .inl hsame⟩

/-- The working directory is canonical, and so are the paths that the workers hold that
have not begun. -/
structure Placed (shell : Shell) : Prop where
  directory : Path.IsCanonical shell.world.directory
  held : ∀ job ∈ shell.jobs.started, ∀ verb, .running (.fresh verb) ∈ job.run.workers →
    verb.IsCanonical

private theorem Placed.of_keepsWorkers (h : shell.Placed) {jobs : Jobs} {world : World}
    (hdirectory : world.directory = shell.world.directory)
    (hworkers : shell.jobs.KeepsWorkers jobs) : ({ shell with world, jobs } : Shell).Placed := by
  refine ⟨hdirectory ▸ h.directory, ?_⟩
  intro job hjob verb hverb
  obtain ⟨old, hold, hsame⟩ := hworkers job hjob
  exact h.held old hold verb (hsame ▸ hverb)

private theorem Placed.accept (h : shell.Placed) (text : Text) : (shell.accept text).Placed := by
  obtain ⟨files, jobs, haccept, hkept | ⟨command, pipeline, job, hbuild, hrun, hstarted⟩⟩ :=
    accept_cases shell text <;> rw [haccept]
  · exact h.of_keepsWorkers rfl hkept
  · refine ⟨h.directory, ?_⟩
    intro other hother verb hverb
    have hmem : other ∈ shell.jobs.started ++ [job] := hstarted ▸ hother
    rcases List.mem_append.mp hmem with hold | hnew
    · exact h.held other hold verb hverb
    · obtain rfl := List.mem_singleton.mp hnew
      have hworkers : (Run.start pipeline).workers =
          pipeline.stages.map fun stage => .running (.fresh stage.verb) := by
        simp [Run.workers, Run.start, Post.ofStages]
      rw [hrun, hworkers] at hverb
      obtain ⟨stage, hstage, hsame⟩ := List.mem_map.mp hverb
      obtain rfl : stage.verb = verb := by simpa using hsame
      exact CommandLine.isCanonical_of_build h.directory.isAbsolute hbuild stage hstage

private theorem Placed.holds (h : shell.Placed) {place position : Nat} {verb : Verb}
    (hworker : shell.worker? place position = some (.running (.fresh verb))) :
    verb.IsCanonical := by
  obtain ⟨job, hjob, hthere⟩ := Option.bind_eq_some_iff.mp hworker
  exact h.held job (List.mem_of_getElem? hjob) verb (List.mem_of_getElem? hthere)

private theorem Placed.work (h : shell.Placed) {place position : Nat}
    (hwork : shell.work place position = some next) : next.Placed := by
  obtain ⟨worker, after, hworker, ⟨wiring, rewired, hstep⟩, hothers⟩ := worker_of_work hwork
  refine ⟨?_, ?_⟩
  · rcases Worker.directory_of_step hstep with ⟨change, rfl, hchange⟩ | hsame
    · rw [hchange]
      exact World.isCanonical_changeDirectory h.directory (h.holds hworker)
    · rw [hsame]
      exact h.directory
  · intro later hlater verb hverb
    rcases hothers later hlater _ hverb with rfl | ⟨old, hold, hthere⟩
    · -- The worker that took the step has begun, and holds no path that is still to be used.
      have hbegun := Worker.isFresh_of_step hstep
      cases hbegun
    · exact h.held old hold verb hthere

private theorem Placed.goes (h : shell.Placed) (hgoes : shell.Goes next) : next.Placed := by
  cases hgoes with
  | line text => exact h.accept text
  | work hwork => exact h.work hwork
  | kill position => exact h.of_keepsWorkers rfl (shell.jobs.keepsWorkers_kill position)
  | wait =>
      refine h.of_keepsWorkers rfl fun job hjob => ?_
      obtain ⟨old, hold, rfl⟩ := List.mem_map.mp hjob
      exact ⟨old, hold, rfl⟩
  | @dismiss before rest job hstarted _ =>
      refine h.of_keepsWorkers rfl fun other hother => ⟨other, ?_, rfl⟩
      rw [hstarted]
      exact (List.sublist_cons_self job rest).append_left before |>.subset hother

private theorem Reaches.placed (h : start.Reaches shell) (hstart : start.Placed) :
    shell.Placed := by
  induction h with
  | start => exact hstart
  | goes _ hgoes ih => exact ih.goes hgoes
  | late _ _ _ hwork habove ih ihEarlier =>
      -- The earlier directory was canonical too, and so is the one above it.
      exact ⟨Path.isCanonical_of_parent? ihEarlier.directory habove, (ih.work hwork).held⟩

/-- Whatever happens but a step of a worker leaves the directory as it is, and a worker
changes it only as a `cd` that begins. -/
theorem Goes.cd_of_directory (h : shell.Goes next)
    (hne : next.world.directory ≠ shell.world.directory) :
    ∃ place position change, shell.work place position = some next ∧
      shell.worker? place position = some (.running (.fresh (.cd change))) ∧
      next.world = shell.world.changeDirectory change := by
  cases h with
  | line text =>
      obtain ⟨files, jobs, haccept, -⟩ := accept_cases shell text
      rw [haccept] at hne
      exact absurd rfl hne
  | @work _ place position hwork =>
      obtain ⟨worker, after, hworker, ⟨wiring, rewired, hstep⟩, -⟩ := worker_of_work hwork
      rcases Worker.directory_of_step hstep with ⟨change, rfl, hchange⟩ | hsame
      · exact ⟨place, position, change, hwork, hworker, hchange⟩
      · exact absurd hsame hne
  | kill position => exact absurd rfl hne
  | wait => exact absurd rfl hne
  | dismiss => exact absurd rfl hne

/-- A worker that goes up with nobody in between comes to what `..` resolves to. -/
theorem Placed.up (h : shell.Placed) {place position : Nat}
    (hworker : shell.worker? place position = some (.running (.fresh (.cd .up))))
    (hwork : shell.work place position = some next) :
    next.world.directory = Path.resolve shell.world.directory Path.above := by
  obtain ⟨worker, after, hthere, ⟨wiring, rewired, hstep⟩, -⟩ := worker_of_work hwork
  obtain rfl : Worker.running (.fresh (.cd .up)) = worker := by
    rw [hworker] at hthere
    exact Option.some.inj hthere
  rw [Worker.world_of_cd hstep]
  exact World.directory_up h.directory

/-- So does a line in the foreground that goes up. -/
theorem Placed.execute_up (h : shell.Placed) {text command : Text} {files : FileTree}
    {pipeline : Pipeline} (hrequest : request text = .pipeline command false)
    (hbuild : CommandLine.build shell.world.directory shell.world.files command =
      (files, .ok pipeline)) (hverbs : pipeline.verbs = [.cd .up]) :
    (shell.execute text).1.world.directory =
      Path.resolve shell.world.directory Path.above := by
  have hbegins : Begins { shell.world with files } [.cd .up] (Run.start pipeline) :=
    hverbs ▸ CommandLine.begins_of_build hbuild
  have hquiet : ¬ Races { shell.world with files } [.cd .up] := by
    rintro ⟨path, place, hlists, -⟩
    cases hlists
  have hsettled := (hbegins.settle hquiet).2
  rw [finalWorld_eq rfl List.getLast?_singleton, Verb.effect_cd] at hsettled
  rw [execute_of_request hrequest, (runPipeline_of_ok hbuild).1]
  simp only [runForeground, hsettled]
  exact World.directory_up h.directory

/-- What holds of the working directory of a shell, and of the paths that are resolved
in it, when the shell has come from another one. -/
structure KeepsCanonical (start shell : Shell) : Prop where
  directory : Path.IsCanonical shell.world.directory
  made : ∀ tree piece stage,
    CommandLine.makeStage shell.world.directory tree piece = .ok stage → stage.verb.IsCanonical
  ending : ∀ redirect stage,
    CommandLine.makeEnding shell.world.directory redirect = .ok stage → stage.verb.IsCanonical
  built : ∀ tree line files pipeline,
    CommandLine.build shell.world.directory tree line = (files, .ok pipeline) →
      ∀ stage ∈ pipeline.stages, stage.verb.IsCanonical
  /-- A worker may begin much later than it was made. -/
  waiting : ∀ place position verb,
    shell.worker? place position = some (.running (.fresh verb)) → verb.IsCanonical
  changes : ∀ next, shell.Goes next → next.world.directory ≠ shell.world.directory →
    ∃ place position change, shell.work place position = some next ∧
      shell.worker? place position = some (.running (.fresh (.cd change))) ∧
      next.world = shell.world.changeDirectory change
  /-- Nobody comes between the question and the change. -/
  up : ∀ place position next,
    shell.worker? place position = some (.running (.fresh (.cd .up))) →
      shell.work place position = some next →
        next.world.directory = Path.resolve shell.world.directory Path.above
  root : ∀ place position next,
    shell.worker? place position = some (.running (.fresh (.cd .up))) →
      shell.work place position = some next →
        shell.world.directory = "/".toList → next.world.directory = "/".toList
  foreground : ∀ text command files pipeline, request text = .pipeline command false →
    CommandLine.build shell.world.directory shell.world.files command = (files, .ok pipeline) →
      pipeline.verbs = [.cd .up] →
        (shell.execute text).1.world.directory = Path.resolve shell.world.directory Path.above
  executes : ∀ text, start.Reaches (shell.execute text).1
  waits : start.Reaches shell.waitBackground.1

/-- A shell that begins in a canonical directory is in one whatever happens, and every
path that it resolves on the way is canonical, also that of a worker which begins only
much later. The directory changes only when the worker of a `cd` begins. To go up, with
nobody between the question and the change, leads to what `..` is resolved to, which for
the root is the root. All this is true of what the shell comes to by executing lines and
by waiting. -/
theorem directory_canonical (hstart : Path.IsCanonical start.world.directory)
    (hnone : start.jobs.started = []) (h : start.Reaches shell) : start.KeepsCanonical shell := by
  have hplaced : shell.Placed := h.placed ⟨hstart, by simp [hnone]⟩
  have habsolute := hplaced.directory.isAbsolute
  exact {
    directory := hplaced.directory
    made := fun _ _ _ => CommandLine.isCanonical_of_makeStage habsolute
    ending := fun _ _ => CommandLine.isCanonical_of_makeEnding habsolute
    built := fun _ _ _ _ => CommandLine.isCanonical_of_build habsolute
    waiting := fun _ _ _ => hplaced.holds
    changes := fun _ hgoes => hgoes.cd_of_directory
    up := fun _ _ _ => hplaced.up
    root := by
      intro place position next hworker hwork hroot
      rw [hplaced.up hworker hwork, hroot]
      decide
    foreground := fun _ _ _ _ => hplaced.execute_up
    executes := h.execute
    waits := h.waitBackground }

end Shell

/-- A shell two levels below the root. -/
def Sample.below : Shell :=
  { name := "shell".toList, world := { files := .empty, directory := "/a/b".toList } }

theorem Sample.isCanonical_below : Path.IsCanonical below.world.directory := by
  refine ⟨["a".toList, "b".toList], rfl, ?_⟩
  intro name hname
  simp only [List.mem_cons, List.not_mem_nil, or_false] at hname
  rcases hname with rfl | rfl <;> exact ⟨by decide, by decide, by decide, by decide⟩

theorem Shell.directory_canonical_sample :
    Path.IsCanonical Sample.below.world.directory ∧ Sample.below.jobs.started = [] ∧
      ∃ next, (Sample.below.execute "cd .. &".toList).1.work 0 0 = some next ∧
        next.world.directory = Path.resolve "/a/b".toList Path.above := by
  have hreaches : Sample.below.Reaches (Sample.below.execute "cd .. &".toList).1 :=
    Reaches.start.execute _
  have hkeeps := directory_canonical Sample.isCanonical_below rfl hreaches
  have hworker : (Sample.below.execute "cd .. &".toList).1.worker? 0 0 =
      some (.running (.fresh (.cd .up))) := by decide +kernel
  have hgoes : ((Sample.below.execute "cd .. &".toList).1.work 0 0).isSome = true := by
    decide +kernel
  have hdirectory : (Sample.below.execute "cd .. &".toList).1.world.directory =
      "/a/b".toList := by decide +kernel
  obtain ⟨next, hwork⟩ := Option.isSome_iff_exists.mp hgoes
  exact ⟨Sample.isCanonical_below, rfl, next, hwork, hdirectory ▸ hkeeps.up 0 0 next hworker hwork⟩

end LineShell
