import Mathlib.Order.WellFounded
import LineShell.Proofs.Background
import LineShell.Proofs.Registry

/-!
What it means that a pipeline has finished. Only its last worker is asked whether it
has ended, and the workers before it may still be at work then, as a `cat` is whose
lines nobody wants any more. But they only pass lines on: with the last worker the
pipeline has had all of its effects, whenever it may have been cancelled and whatever
the world was between its steps. So nothing is lost when the registry drops a job that
has finished and nobody waits for it.
-/

namespace LineShell

namespace Run

/-- What a pipeline may become by one step of a worker, or when it is cancelled, in some
world. -/
def Moves (run after : Run) : Prop :=
  ∃ world move later, run.move world move = some (after, later)

/-- A pipeline of an accepted line at some moment of its work, cancelled or not. -/
inductive Underway : Run → Prop
  | start {directory line : Text} {tree cleared : FileTree} {pipeline : Pipeline}
      (build : CommandLine.build directory tree line = (cleared, .ok pipeline)) :
      Underway (start pipeline)
  | move {run next : Run} (before : Underway run) (moves : run.Moves next) : Underway next

variable {run after : Run} {world later : World}

/-- What every move keeps holds after all moves. -/
theorem moves_induction {motive : Run → Prop} (start : motive run)
    (step : ∀ before world move after later, motive before →
      before.move world move = some (after, later) → motive after)
    (h : Relation.ReflTransGen Moves run after) : motive after := by
  induction h with
  | refl => exact start
  | tail _ hmoves ih =>
      obtain ⟨world, move, later, hmove⟩ := hmoves
      exact step _ world move _ later ih hmove

private theorem Underway.moves (h : run.Underway) (hmoves : Relation.ReflTransGen Moves run after) :
    after.Underway :=
  moves_induction h (fun _ world move _ later hbefore hmove =>
    .move hbefore ⟨world, move, later, hmove⟩) hmoves

private theorem Sound.moves (h : run.Sound) (hmoves : Relation.ReflTransGen Moves run after) :
    after.Sound :=
  moves_induction h (fun _ _ _ _ _ hbefore hmove => hbefore.move hmove) hmoves

private theorem IsIdle.moves (h : run.IsIdle) (hmoves : Relation.ReflTransGen Moves run after) :
    after.IsIdle :=
  moves_induction h (fun _ _ _ _ _ hbefore hmove => (hbefore.move hmove).1) hmoves

private theorem Underway.sound (h : run.Underway) : run.Sound := by
  induction h with
  | start hbuild => exact (AtWork.start hbuild).sound.1
  | move _ hmoves ih => exact ih.moves (.single hmoves)

private theorem moves_of_follow {moves : List Move}
    (h : run.follow world moves = some (after, later)) :
    Relation.ReflTransGen Moves run after := by
  refine follow_induction (motive := fun _ after _ => Relation.ReflTransGen Moves run after)
    .refl ?_ h
  intro _ _ earlier move _ later _ hbefore hmove
  exact hbefore.tail ⟨earlier, move, later, hmove⟩

/-- A pipeline makes only so many moves, even where the world changes in between. -/
theorem wellFounded_moves : WellFounded fun after run : Run => run.Moves after := by
  refine Subrelation.wf ?_ (InvImage.wf
    (fun run : Run => (Post.freshCount run.posts, run.weight))
    (inferInstance : WellFoundedRelation (Nat × Nat)).wf)
  rintro after run ⟨world, move, later, hmove⟩
  rcases lighter_of_move hmove with hfewer | ⟨hsame, hless⟩
  · exact Prod.Lex.left _ _ hfewer
  · simp only [InvImage, hsame]
    exact Prod.Lex.right _ hless

/-! The last worker. -/

theorem isFinished_iff :
    run.isFinished = true ↔ ∀ worker, run.workers.getLast? = some worker →
      ∃ exit, worker = .gone exit := by
  have hexit (worker : Worker) :
      worker.exit?.isSome = true ↔ ∃ exit, worker = .gone exit := by
    cases worker <;> simp [Worker.exit?]
  simp [isFinished, workers, List.getLast?_map, Option.all_eq_true, hexit]

/-- Every worker but the last only passes lines on, and when the last has ended, no
worker is left that has to do with the world. -/
theorem Sound.isIdle_of_isFinished (h : run.Sound) (hfinished : run.isFinished = true) :
    run.IsIdle := by
  intro worker hworker
  obtain ⟨post, hpost, rfl⟩ := List.mem_map.mp hworker
  obtain ⟨before, rest, hposts⟩ := List.append_of_mem hpost
  -- What stands behind a worker reads from it, so only the last may do anything else.
  cases rest with
  | nil =>
      have hlast : run.workers.getLast? = some post.worker := by simp [workers, hposts]
      obtain ⟨exit, hexit⟩ := isFinished_iff.mp hfinished _ hlast
      rw [hexit]
      rfl
  | cons next more =>
      have hdrop : run.posts.drop before.length = post :: next :: more := by
        rw [hposts, List.drop_left]
      exact h.wellWired.isLink_of_drop hdrop

/-- A worker that has ended has ended for good. -/
theorem isFinished_of_move {move : Move} (h : run.isFinished = true)
    (hmove : run.move world move = some (after, later)) : after.isFinished = true := by
  rw [isFinished_iff] at h ⊢
  rcases move_cases hmove with ⟨position, posts, -, rfl, hstep⟩ | ⟨-, -, rfl, -⟩
  · obtain ⟨post, rest, next, wiring, hdrop, hpost, -, hworkers⟩ := Post.single_of_stepAt hstep
    have hthere : run.workers[position]? = some post.worker := by
      simp [workers, Post.getElem?_of_drop hdrop]
    intro worker hlast
    rw [workers, hworkers, List.getLast?_eq_getElem?, List.length_set] at hlast
    rcases of_getElem?_set hlast with ⟨hplace, -⟩ | ⟨-, hsame⟩
    · -- It would be the last worker that took the step, but that one had ended.
      have hended := h post.worker
      rw [List.getLast?_eq_getElem?] at hended
      obtain ⟨exit, hgone⟩ := hended (hplace ▸ hthere)
      rw [hgone] at hpost
      cases hpost
    · exact h worker (List.getLast?_eq_getElem?.trans hsame)
  · exact h

/-- A pipeline that is over: whatever moves it still makes, it stays finished and leaves
the world alone, it makes only so many of them, and when it can make none all of its
workers have ended. -/
structure Over (run : Run) : Prop where
  finished : ∀ next, Relation.ReflTransGen Moves run next → next.isFinished = true
  unchanged : ∀ next, Relation.ReflTransGen Moves run next →
    ∀ world move after later, next.move world move = some (after, later) → later = world
  bounded : ∀ runs : Nat → Run, runs 0 = run → ∃ turn, ¬ (runs turn).Moves (runs (turn + 1))
  ends : ∀ next, Relation.ReflTransGen Moves run next →
    ∀ world, (∀ position, next.stepAt position world = none) → ∀ post ∈ next.posts, post.HasEnded

private theorem Sound.over (h : run.Sound) (hfinished : run.isFinished = true) : run.Over := by
  have hidle := h.isIdle_of_isFinished hfinished
  refine ⟨fun next hmoves => ?_, fun next hmoves world move after later hmove => ?_,
    fun runs _ => ?_, fun next hmoves world hstuck => ?_⟩
  · exact moves_induction hfinished (fun _ _ _ _ _ => isFinished_of_move) hmoves
  · exact ((hidle.moves hmoves).move hmove).2
  · have : IsWellFounded Run fun after run => run.Moves after := ⟨wellFounded_moves⟩
    exact WellFounded.not_rel_apply_succ (r := fun after run => run.Moves after) runs
  · exact (h.moves hmoves).ended_of_stuck hstuck

end Run

/-! What becomes of the jobs of a registry. -/

/-- What a job may become when something happens to its registry. -/
inductive Job.Transition : Job → Job → Prop
  | drop {job : Job} (finished : job.run.isFinished = true) :
      Transition job { job with held := false }
  | kill (job : Job) : Transition job { job with run := job.run.cancel, held := false }
  | work {job : Job} {run : Run} {position : Nat} {world later : World}
      (goes : job.run.stepAt position world = some (run, later)) :
      Transition job { job with run }
  | wait (job : Job) (world : World) :
      Transition job { job with run := (job.run.settle world).1, held := false }

namespace Job

variable {job next : Job}

private theorem Transition.id (h : job.Transition next) : next.id = job.id := by
  cases h <;> rfl

private theorem Transition.moves (h : job.Transition next) :
    Relation.ReflTransGen Run.Moves job.run next.run := by
  cases h with
  | drop => exact .refl
  | kill =>
      cases hcancelled : job.run.cancelled with
      | true =>
          have hsame : job.run.cancel = job.run := by
            rw [Run.cancel, ← hcancelled]
          exact hsame ▸ .refl
      | false =>
          have hmove (world : World) :
              job.run.move world .cancel = some (job.run.cancel, world) := by
            simp [Run.move, hcancelled]
          exact .single ⟨{ files := .empty, directory := [] }, .cancel, _, hmove _⟩
  | @work run position world later hgoes => exact .single ⟨world, .step position, later, hgoes⟩
  | wait world =>
      obtain ⟨order, hfollow⟩ := job.run.follow_settle world
      exact Run.moves_of_follow hfollow

private theorem Transition.released (h : job.Transition next) (hreleased : job.held = false) :
    next.held = false := by
  cases h with
  | work => exact hreleased
  | _ => rfl

/-- A job that was let go without having been killed has nothing more to do with the
world. -/
def IsSpent (job : Job) : Prop :=
  job.held = false → job.run.cancelled = false → job.run.IsIdle

private theorem Transition.isSpent (h : job.Transition next) (hsound : job.run.Sound)
    (hspent : job.IsSpent) : next.IsSpent := by
  cases h with
  | drop hfinished => exact fun _ _ => hsound.isIdle_of_isFinished hfinished
  | kill => exact fun _ hgoing => nomatch hgoing
  | @work run position world later hgoes =>
      intro hreleased hgoing
      have hmove : job.run.move world (.step position) = some (run, later) := hgoes
      have hbefore := Run.uncancelled_of_move hmove hgoing
      exact ((hspent hreleased hbefore).move hmove).1
  | wait world =>
      intro _ _ worker hworker
      obtain ⟨post, hpost, rfl⟩ := List.mem_map.mp hworker
      obtain ⟨exit, hexit⟩ := (hsound.settle world).1.ended_of_stuck
        (job.run.stepAt_settle world) post hpost
      rw [hexit]
      rfl

private theorem transition_prune (job : Job) : Relation.ReflTransGen Transition job
    (if job.run.isFinished then { job with held := false } else job) := by
  split
  · rename_i hfinished
    exact .single (.drop hfinished)
  · exact .refl

private theorem transition_release (job : Job) (id : Nat) : Relation.ReflTransGen Transition job
    (if job.id = id then { job with run := job.run.cancel, held := false } else job) := by
  split
  · exact .single (.kill job)
  · exact .refl

/-! The same along all that happens. -/

private theorem id_of_transition (h : Relation.ReflTransGen Transition job next) :
    next.id = job.id := by
  induction h with
  | refl => rfl
  | tail _ htransition ih => exact htransition.id.trans ih

private theorem moves_of_transition (h : Relation.ReflTransGen Transition job next) :
    Relation.ReflTransGen Run.Moves job.run next.run := by
  induction h with
  | refl => exact .refl
  | tail _ htransition ih => exact ih.trans htransition.moves

private theorem released_of_transition (h : Relation.ReflTransGen Transition job next)
    (hreleased : job.held = false) : next.held = false := by
  induction h with
  | refl => exact hreleased
  | tail _ htransition ih => exact htransition.released ih

private theorem isSpent_of_transition (h : Relation.ReflTransGen Transition job next)
    (hsound : job.run.Sound) (hspent : job.IsSpent) : next.IsSpent := by
  induction h with
  | refl => exact hspent
  | tail hbefore htransition ih =>
      exact htransition.isSpent (hsound.moves (moves_of_transition hbefore)) ih

end Job

namespace Jobs

variable {jobs after : Jobs} {world : World}

private theorem transition_prune (jobs : Jobs) :
    List.Forall₂ (Relation.ReflTransGen Job.Transition) jobs.started jobs.prune.started :=
  List.forall₂_map_right_iff.mpr (List.forall₂_same.mpr fun job _ => job.transition_prune)

private theorem transition_kill (jobs : Jobs) (position : Nat) :
    List.Forall₂ (Relation.ReflTransGen Job.Transition) jobs.started
      (jobs.kill position).1.started := by
  simp only [kill]
  split
  · exact jobs.transition_prune
  · split
    · exact jobs.transition_prune
    · rename_i killed _
      exact List.forall₂_map_right_iff.mpr (List.forall₂_map_right_iff.mpr
        (List.forall₂_same.mpr fun job _ =>
          job.transition_prune.trans (Job.transition_release _ killed.id)))

private theorem transition_waitAll (jobs : Jobs) (world : World) :
    List.Forall₂ (Relation.ReflTransGen Job.Transition) jobs.started
      (jobs.waitAll world).1.started := by
  refine List.forall₂_map_right_iff.mpr ((forall₂_settleEach jobs.started world).imp ?_)
  rintro job _ ⟨before, rfl⟩
  exact .single (.wait job before)

private theorem transition_work {place position : Nat} {later : World}
    (h : jobs.work world place position = some (after, later)) :
    List.Forall₂ (Relation.ReflTransGen Job.Transition) jobs.started after.started := by
  obtain ⟨job, run, hjob, hstep, rfl⟩ := work_cases h
  exact forall₂_set (fun _ => .refl) hjob (.single (.work hstep))

/-- Whatever happens to a registry, each of its jobs stays in its place and changes in these
ways only, and a new job is held. -/
theorem transition_of_handle {event : JobsEvent} {answer : JobsAnswer}
    (h : jobs.handle world event = some (after, answer)) :
    ∃ kept more, after.started = kept ++ more ∧ (∀ job ∈ more, job.held = true) ∧
      List.Forall₂ (Relation.ReflTransGen Job.Transition) jobs.started kept := by
  have hall
      (htransition :
        List.Forall₂ (Relation.ReflTransGen Job.Transition) jobs.started after.started) :
      ∃ kept more, after.started = kept ++ more ∧ (∀ job ∈ more, job.held = true) ∧
        List.Forall₂ (Relation.ReflTransGen Job.Transition) jobs.started kept :=
    ⟨after.started, [], by simp, by simp, htransition⟩
  cases event with
  | register run going =>
      obtain ⟨rfl, -⟩ := Prod.mk.inj (Option.some.inj h)
      exact ⟨jobs.started, [{ id := jobs.nextId, run }], rfl, by simp,
        List.forall₂_same.mpr fun _ _ => .refl⟩
  | kill position =>
      obtain ⟨rfl, -⟩ := Prod.mk.inj (Option.some.inj h)
      exact hall (jobs.transition_kill position)
  | wait =>
      obtain ⟨rfl, -⟩ := Prod.mk.inj (Option.some.inj h)
      exact hall (jobs.transition_waitAll world)
  | work place position =>
      obtain ⟨⟨next, later⟩, hwork, heq⟩ := Option.map_eq_some_iff.mp h
      obtain ⟨rfl, -⟩ := Prod.mk.inj heq
      exact hall (transition_work hwork)
  | list | prune | count | isEmpty =>
      obtain ⟨rfl, -⟩ := Prod.mk.inj (Option.some.inj h)
      exact hall jobs.transition_prune

private theorem History.isSpent {turns : List Turn} (h : History turns jobs) :
    ∀ job ∈ jobs.started, job.IsSpent := by
  induction h with
  | start => nofun
  | turn before happens ih =>
      obtain ⟨kept, more, hstarted, hheld, htransition⟩ := transition_of_handle happens
      intro next hnext
      rw [hstarted] at hnext
      rcases List.mem_append.mp hnext with hold | hnew
      · obtain ⟨job, hjob, hthen⟩ := exists_of_forall₂ htransition next hold
        exact Job.isSpent_of_transition hthen (before.orderly.sound job hjob) (ih job hjob)
      · exact fun hreleased => absurd (hheld next hnew) (by simp [hreleased])

/-- What has become of a job, by the end of a turn and by the end of the history. -/
theorem History.transitions {turns : List Turn} (h : History turns jobs) :
    ∀ turn ∈ turns, ∀ (place : Nat) (job : Job), turn.before.started[place]? = some job →
      ∃ left next, turn.after.started[place]? = some left ∧ jobs.started[place]? = some next ∧
        Relation.ReflTransGen Job.Transition job left ∧
        Relation.ReflTransGen Job.Transition left next := by
  induction h with
  | start => nofun
  | @turn turns jobs after event answer world before happens ih =>
      obtain ⟨kept, more, hstarted, -, htransition⟩ := transition_of_handle happens
      have hnext {place : Nat} {job : Job} (hjob : jobs.started[place]? = some job) :
          ∃ next, after.started[place]? = some next ∧
            Relation.ReflTransGen Job.Transition job next := by
        obtain ⟨next, hkept, hthen⟩ := getElem?_of_forall₂ htransition hjob
        refine ⟨next, ?_, hthen⟩
        rw [hstarted, List.getElem?_append_left (List.getElem?_eq_some_iff.mp hkept).1, hkept]
      intro turn hturn place job hjob
      rcases List.mem_append.mp hturn with hold | hnew
      · obtain ⟨left, last, hleft, hlast, hfirst, hthen⟩ := ih turn hold place job hjob
        obtain ⟨next, hthere, hmore⟩ := hnext hlast
        exact ⟨left, next, hleft, hthere, hfirst, hthen.trans hmore⟩
      · obtain rfl := List.mem_singleton.mp hnew
        obtain ⟨next, hthere, hthen⟩ := hnext hjob
        exact ⟨next, next, hthere, hthere, hthen, .refl⟩

/-- Where some jobs are idle, nobody has to wait for them. -/
theorem settleEach_filter {started : List Job} {awaited : Job → Bool}
    (h : ∀ job ∈ started, awaited job = false → job.run.IsIdle) (world : World) :
    (settleEach (started.filter awaited) world).2 = (settleEach started world).2 := by
  induction started generalizing world with
  | nil => rfl
  | cons job rest ih =>
      have hrest := ih fun other hother => h other (List.mem_cons_of_mem _ hother)
      cases hawaited : awaited job with
      | true => simp only [List.filter_cons, hawaited, if_true, settleEach, hrest]
      | false =>
          have hworld := (h job List.mem_cons_self hawaited).settle world
          simp [hawaited, settleEach, hworld, hrest]

end Jobs

namespace Turn

/-- What lets a job go that a pruning event drops without killing it. -/
theorem Lawful.isFinished_of_departed {turn : Turn}
    (h : Lawful turn.before turn.after turn.event turn.answer) (hbefore : turn.before.Orderly)
    (hprunes : turn.event.prunes = true) {job : Job} (hjob : job ∈ turn.before.held)
    (hleft : job.id ∈ turn.departed)
    (hkilled : ∀ info, turn.answer = .killed (.ok info) → info.id ≠ job.id) :
    job.run.isFinished = true := by
  rcases h.releases hbefore hjob hleft with
    ⟨-, hfinished⟩ | ⟨position, info, -, hanswer, hid⟩ | ⟨hwait, -⟩
  · exact hfinished
  · exact absurd hid (hkilled info hanswer)
  · rw [hwait] at hprunes
    cases hprunes

end Turn

namespace Jobs

/-- A job that has left the registry is never held again, and goes on as it would. -/
theorem History.departed {turns : List Turn} {jobs : Jobs} (h : History turns jobs) {turn : Turn}
    (hturn : turn ∈ turns) {job next : Job} (hjob : job ∈ turn.before.started)
    (hleft : job.id ∈ turn.departed) (hnext : next ∈ jobs.started) (hid : next.id = job.id) :
    next.held = false ∧ Relation.ReflTransGen Run.Moves job.run next.run := by
  obtain ⟨place, hplace⟩ := List.mem_iff_getElem?.mp hjob
  obtain ⟨left, last, hafter, hlast, hfirst, hthen⟩ := h.transitions turn hturn place job hplace
  have hsame : last.id = next.id := by
    rw [Job.id_of_transition hthen, Job.id_of_transition hfirst, hid]
  have hnodup : (jobs.started.map Job.id).Nodup := h.orderly.ascending.imp Nat.ne_of_lt
  obtain rfl : last = next :=
    List.inj_on_of_nodup_map hnodup (List.mem_of_getElem? hlast) hnext hsame
  refine ⟨Job.released_of_transition hthen ?_,
    (Job.moves_of_transition hfirst).trans (Job.moves_of_transition hthen)⟩
  by_contra hheld
  have hstill : left ∈ turn.after.held :=
    List.mem_filter.mpr ⟨List.mem_of_getElem? hafter, by simpa using hheld⟩
  have hgone : job.id ∉ turn.after.heldIds := by simpa using (List.mem_filter.mp hleft).2
  exact hgone (Job.id_of_transition hfirst ▸ Turn.mem_heldIds hstill)

end Jobs

/-- Once the last worker of a pipeline has ended the pipeline is over, in whatever order
its workers took their steps and whether it was cancelled or not. A job that the
registry has dropped for that is over, whatever happens later. To wait for none of the
jobs that were dropped leads to the same world as to wait for all. -/
theorem finished_is_over :
    (∀ run : Run, run.Underway → run.isFinished = true → run.Over) ∧
    ∀ (turns : List Turn) (jobs : Jobs), Jobs.History turns jobs →
      (∀ turn ∈ turns, turn.event.prunes = true →
        ∀ job ∈ turn.before.held, job.id ∈ turn.departed →
          (∀ info, turn.answer = .killed (.ok info) → info.id ≠ job.id) →
            job.run.Over ∧
            ∀ (place : Nat) (next : Job), jobs.started[place]? = some next → next.id = job.id →
              next.held = false ∧
              ∀ world position after later,
                jobs.work world place position = some (after, later) → later = world) ∧
      ∀ world,
        (Jobs.settleEach (jobs.started.filter fun job => job.held || job.run.cancelled) world).2 =
          (jobs.waitAll world).2.1 := by
  refine ⟨fun run hunderway hfinished => hunderway.sound.over hfinished, ?_⟩
  intro turns jobs hhistory
  refine ⟨?_, fun world => ?_⟩
  · intro turn hturn hprunes job hjob hleft hkilled
    obtain ⟨hbefore, hlaw⟩ := hhistory.turn_lawful turn hturn
    have hstarted : job ∈ turn.before.started := turn.before.held_sublist.subset hjob
    have hfinished := hlaw.isFinished_of_departed hbefore hprunes hjob hleft hkilled
    have hover := (hbefore.sound job hstarted).over hfinished
    refine ⟨hover, fun place next hnext hid => ?_⟩
    obtain ⟨hreleased, hmoves⟩ :=
      hhistory.departed hturn hstarted hleft (List.mem_of_getElem? hnext) hid
    refine ⟨hreleased, fun world position after later hwork => ?_⟩
    obtain ⟨other, run, hother, hstep, -⟩ := Jobs.work_cases hwork
    obtain rfl : next = other := Option.some.inj (hnext.symm.trans hother)
    exact hover.unchanged _ hmoves world (.step position) run later hstep
  · refine Jobs.settleEach_filter (fun job hjob hawaited => ?_) world
    obtain ⟨hreleased, hgoing⟩ := Bool.or_eq_false_iff.mp hawaited
    exact hhistory.isSpent job hjob hreleased hgoing

/-- A pipeline that was cancelled before its first worker began. The last worker has
ended, the others have not, and still it is over. -/
theorem finished_is_over_sample :
    ∃ run : Run, run.Underway ∧ run.isFinished = true ∧
      (∃ worker ∈ run.workers, worker.exit? = none) ∧ run.Over := by
  let state := (Run.start Sample.pipeline).follow Sample.world
    (.cancel :: List.replicate 4 (.step 2))
  have hstate : (state.map fun state => (state.1.isFinished,
      state.1.workers.any fun worker => worker.exit? = none)) = some (true, true) := by
    decide +kernel
  obtain ⟨⟨run, world⟩, hfollow, hrun⟩ := Option.map_eq_some_iff.mp hstate
  obtain ⟨hfinished, hgoing⟩ := Prod.mk.inj hrun
  have hunderway : run.Underway :=
    (Run.Underway.start Sample.build_line).moves (Run.moves_of_follow hfollow)
  exact ⟨run, hunderway, hfinished, by simpa using hgoing,
    finished_is_over.1 run hunderway hfinished⟩

end LineShell
