import LineShell.Jobs
import LineShell.Proofs.Outcomes

/-!
Jobs at work side by side. A step of a job is one step of one of its workers, and
the jobs share nothing but the world, which may change between two steps of a
job in any way. What is said here of one pipeline therefore holds whatever the
others do: its channels stay in order, and a pipeline that nobody cancels ends
with all of its workers finished.
-/

namespace LineShell

namespace Run

/-- The channels of a pipeline are in order, and as long as nobody has cancelled it
none of its workers ends as cancelled. -/
structure Sound (run : Run) : Prop where
  wellWired : Post.WellWired none run.posts
  own : run.cancelled = false → ∀ worker ∈ run.workers, worker.outcome? ≠ some .cancelled

/-- The result of a pipeline whose workers have all come to an end of their own. -/
def wholeResult (run : Run) : RunResult :=
  { stages := run.posts.length
    finished := run.posts.length
    cancelled := 0
    lost := 0
    exitRequested := run.exitRequested }

/-- A pipeline of an accepted line at some moment of its work, before anybody has
cancelled it. What its steps find in the world is left open. -/
inductive AtWork : Run → Prop
  | start {directory line : Text} {tree cleared : FileTree} {pipeline : Pipeline}
      (build : CommandLine.build directory tree line = (cleared, .ok pipeline)) :
      AtWork (start pipeline)
  | step {run next : Run} {position : Nat} {world later : World} (before : AtWork run)
      (goes : run.stepAt position world = some (next, later)) : AtWork next

variable {run after : Run} {world later : World}

theorem Sound.cancel (h : run.Sound) : run.cancel.Sound :=
  ⟨h.wellWired, fun hgoing => by cases hgoing⟩

theorem Sound.move {move : Move} (h : run.Sound)
    (hmove : run.move world move = some (after, later)) : after.Sound := by
  rcases move_cases hmove with ⟨position, posts, -, rfl, hstep⟩ | ⟨-, -, rfl, -⟩
  · refine ⟨h.wellWired.stepAt hstep, ?_⟩
    intro hgoing worker hworker hcancelled
    obtain ⟨post, rest, next, wiring, hdrop, hpost, -, hworkers⟩ := Post.single_of_stepAt hstep
    rw [workers, hworkers] at hworker
    rcases List.mem_or_eq_of_mem_set hworker with hold | rfl
    · exact h.own hgoing worker hold hcancelled
    · have hthere : post.worker ∈ run.workers :=
        List.mem_map_of_mem (List.mem_of_getElem? (Post.getElem?_of_drop hdrop))
      exact h.own hgoing _ hthere (Worker.outcome?_of_uncancelled_step hpost hgoing hcancelled)
  · exact h.cancel

private theorem Sound.follow {moves : List Move} (h : run.Sound)
    (hfollow : run.follow world moves = some (after, later)) : after.Sound := by
  refine follow_induction (motive := fun _ run _ => run.Sound) h ?_ hfollow
  intro _ _ _ _ _ _ _ hbefore hmove
  exact hbefore.move hmove

private theorem Sound.of_posts {verbs : List Verb} {tree : FileTree} (hrow : Row tree verbs)
    (hposts : run.posts = Post.lined false verbs) : run.Sound := by
  refine ⟨hposts ▸ hrow.wellWired, fun _ worker hworker hcancelled => ?_⟩
  rw [workers, hposts, Post.map_worker_lined] at hworker
  obtain ⟨verb, -, rfl⟩ := List.mem_map.mp hworker
  cases hcancelled

theorem AtWork.sound (h : run.AtWork) : run.Sound ∧ run.cancelled = false := by
  induction h with
  | start hbuild =>
      obtain ⟨hrow, hposts⟩ := CommandLine.row_of_build hbuild
      exact ⟨.of_posts hrow hposts, rfl⟩
  | @step run next position world later _ hgoes ih =>
      have hmove : run.move world (.step position) = some (next, later) := hgoes
      refine ⟨ih.1.move hmove, ?_⟩
      rcases move_cases hmove with ⟨_, _, -, rfl, -⟩ | ⟨hcancel, -⟩
      · exact ih.2
      · cases hcancel

/-- A pipeline that cannot go on has come to its end. -/
theorem Sound.ended_of_stuck (h : run.Sound)
    (hstuck : ∀ position, run.stepAt position world = none) :
    ∀ post ∈ run.posts, post.HasEnded := by
  apply h.wellWired.ended_of_stuck
  · intro writer hwriter
    cases hwriter
  · intro position
    exact Option.map_eq_none_iff.mp (hstuck position)

/-- If nobody has cancelled it, all of its workers have finished. -/
theorem Sound.finished_of_stuck (h : run.Sound) (hgoing : run.cancelled = false)
    (hstuck : ∀ position, run.stepAt position world = none) :
    ∀ worker ∈ run.workers, worker = .gone .finished := by
  intro worker hworker
  obtain ⟨post, hpost, rfl⟩ := List.mem_map.mp hworker
  obtain ⟨exit, hexit⟩ := h.ended_of_stuck hstuck post hpost
  have hown := h.own hgoing post.worker hworker
  rw [hexit] at hown ⊢
  cases exit with
  | finished => rfl
  | cancelled => exact absurd rfl hown

private theorem Sound.result_of_stuck (h : run.Sound) (hgoing : run.cancelled = false)
    (hstuck : ∀ position, run.stepAt position world = none) : run.result = run.wholeResult :=
  result_of_finished (h.finished_of_stuck hgoing hstuck)

/-- Running a pipeline to its end leaves its channels in order, and how it ends is
known beforehand if nobody has cancelled it. -/
theorem Sound.settle (h : run.Sound) (world : World) :
    (run.settle world).1.Sound ∧
      (run.cancelled = false → (run.settle world).1.result = run.wholeResult) := by
  obtain ⟨order, hfollow⟩ := run.follow_settle world
  have hsound : (run.settle world).1.Sound := h.follow hfollow
  refine ⟨hsound, fun hgoing => ?_⟩
  have hstill : (run.settle world).1.cancelled = false :=
    (uncancelled_of_steps hfollow).trans hgoing
  have hlength : (run.settle world).1.posts.length = run.posts.length := length_of_follow hfollow
  have hexit : (run.settle world).1.exitRequested = run.exitRequested :=
    exitRequested_of_follow hfollow
  rw [hsound.result_of_stuck hstill (run.stepAt_settle world), wholeResult, wholeResult, hlength,
    hexit]

end Run

namespace Jobs

/-- One step of a worker of a job. The job is named by how many were started before
it. -/
def work (jobs : Jobs) (world : World) (place position : Nat) : Option (Jobs × World) :=
  match jobs.started[place]? with
  | none => none
  | some job =>
    (job.run.stepAt position world).map fun (run, later) =>
      ({ jobs with started := jobs.started.set place { job with run } }, later)

/-- A step of a job changes that job's pipeline and the world. -/
theorem work_cases {jobs after : Jobs} {world later : World} {place position : Nat}
    (h : jobs.work world place position = some (after, later)) :
    ∃ job run, jobs.started[place]? = some job ∧
      job.run.stepAt position world = some (run, later) ∧
      after = { jobs with started := jobs.started.set place { job with run } } := by
  unfold work at h
  split at h
  · cases h
  · rename_i job hjob
    obtain ⟨⟨run, later'⟩, hstep, heq⟩ := Option.map_eq_some_iff.mp h
    simp only [Prod.mk.injEq] at heq
    obtain ⟨rfl, rfl⟩ := heq
    exact ⟨job, run, hjob, hstep, rfl⟩

/-- An entry that keeps what is told of it. -/
theorem map_set_of_getElem? {α β : Type} {f : α → β} {entries : List α} {index : Nat}
    {entry next : α} (hentry : entries[index]? = some entry) (hsame : f next = f entry) :
    (entries.set index next).map f = entries.map f := by
  refine List.ext_getElem? fun position => ?_
  rw [List.getElem?_map, List.getElem?_set, List.getElem?_map]
  split
  · rename_i hindex
    subst hindex
    rw [if_pos (List.getElem?_eq_some_iff.mp hentry).1, hentry, Option.map_some, hsame,
      Option.map_some]
  · rfl

/-- Each job is run to its end in the world that the jobs before it have left. -/
theorem forall₂_settleEach (jobs : List Job) (world : World) :
    List.Forall₂ (fun job done => ∃ before, done = { job with run := (job.run.settle before).1 })
      jobs (settleEach jobs world).1 := by
  induction jobs generalizing world with
  | nil => exact .nil
  | cons job rest ih => exact .cons ⟨world, rfl⟩ (ih _)

theorem settleEach_append (first second : List Job) (world : World) :
    settleEach (first ++ second) world =
      ((settleEach first world).1 ++ (settleEach second (settleEach first world).2).1,
       (settleEach second (settleEach first world).2).2) := by
  induction first generalizing world with
  | nil => rfl
  | cons job rest ih => simp [settleEach, ih]

/-- A job that is held and that nobody has cancelled is answered for with a result that
is known beforehand. -/
theorem results_settleEach {jobs : List Job} (hsound : ∀ job ∈ jobs.filter Job.held, job.run.Sound)
    (hgoing : ∀ job ∈ jobs.filter Job.held, job.run.cancelled = false) (world : World) :
    ((settleEach jobs world).1.filter Job.held).map (fun job => (job.id, job.run.result)) =
      (jobs.filter Job.held).map fun job => (job.id, job.run.wholeResult) := by
  induction jobs generalizing world with
  | nil => rfl
  | cons job rest ih =>
      have hmore : ∀ other ∈ rest.filter Job.held, other ∈ (job :: rest).filter Job.held :=
        fun _ hother => ((List.sublist_cons_self job rest).filter _).subset hother
      have hrest := ih (fun other hother => hsound other (hmore other hother))
        (fun other hother => hgoing other (hmore other hother)) (job.run.settle world).2
      cases hheld : job.held with
      | false => simpa [settleEach, hheld] using hrest
      | true =>
          have hjob : job ∈ (job :: rest).filter Job.held := by simp [hheld]
          have hresult := ((hsound job hjob).settle world).2 (hgoing job hjob)
          simpa [settleEach, hheld, hresult] using hrest

end Jobs

end LineShell
