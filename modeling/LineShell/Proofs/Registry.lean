import Mathlib.Data.List.Nodup
import Mathlib.Data.List.Perm.Basic
import LineShell.Proofs.JobSteps

/-!
The registry along all of its histories. A history is any row of operations on an
empty registry, with steps of the workers of its jobs between them, in whatever
world each of them finds. Two things carry everything that is said here: the
numbers of the jobs ascend in the order of their start, and no job is held that
has been cancelled.
-/

namespace LineShell

/-- What may happen to a registry: one of its operations, or a step of a worker of a
job. -/
inductive JobsEvent where
  | register (run : Run) (going : run.AtWork)
  | list
  | kill (position : Nat)
  | prune
  | count
  | isEmpty
  | wait
  | work (place position : Nat)

/-- What is answered when something has happened. -/
inductive JobsAnswer where
  | started (id : Nat)
  | listing (lines : List JobInfo)
  | killed (answer : Except ShellError JobInfo)
  | counted (count : Nat)
  | emptiness (empty : Bool)
  | results (results : List (Nat × RunResult))
  | nothing

/-- Whether an event is an operation that first drops the jobs that have ended. -/
def JobsEvent.prunes : JobsEvent → Bool
  | .list | .kill _ | .prune | .count | .isEmpty => true
  | .register .. | .wait | .work .. => false

/-- An event in a history, with the registry before it and after it. -/
structure Turn where
  before : Jobs
  event : JobsEvent
  answer : JobsAnswer
  after : Jobs

namespace Jobs

/-- What an event makes of a registry in some world, where it can happen. -/
def handle (jobs : Jobs) (world : World) : JobsEvent → Option (Jobs × JobsAnswer)
  | .register run _ => some ((jobs.register run).1, .started (jobs.register run).2)
  | .list => some (jobs.list.1, .listing jobs.list.2)
  | .kill position => some ((jobs.kill position).1, .killed (jobs.kill position).2)
  | .prune => some (jobs.prune, .nothing)
  | .count => some (jobs.count.1, .counted jobs.count.2)
  | .isEmpty => some (jobs.isEmpty.1, .emptiness jobs.isEmpty.2)
  | .wait => some ((jobs.waitAll world).1, .results (jobs.waitAll world).2.2)
  | .work place position =>
    (jobs.work world place position).map fun (jobs, _) => (jobs, .nothing)

/-- The histories of a registry that is empty at first. -/
inductive History : List Turn → Jobs → Prop
  | start : History [] {}
  | turn {turns : List Turn} {jobs after : Jobs} {event : JobsEvent} {answer : JobsAnswer}
      {world : World} (before : History turns jobs)
      (happens : jobs.handle world event = some (after, answer)) :
      History (turns ++ [{ before := jobs, event, answer, after }]) after

/-- The jobs that the registry holds and whose last worker has not ended. -/
def live (jobs : Jobs) : List Job :=
  jobs.held.filter fun job => !job.run.isFinished

/-- The numbers of the jobs that the registry holds. -/
def heldIds (jobs : Jobs) : List Nat :=
  jobs.held.map Job.id

/-- The pipelines of all jobs that were ever started, with their numbers. -/
def runs (jobs : Jobs) : List (Nat × Run) :=
  jobs.started.map fun job => (job.id, job.run)

end Jobs

/-- A listing of jobs at work. The positions count from one. -/
def numbered (jobs : List Job) : List JobInfo :=
  jobs.mapIdx fun index job =>
    { id := job.id, position := index + 1, command := job.run.command, status := .running }

/-- The lines of a listing with their positions counted anew. -/
def renumbered (lines : List JobInfo) : List JobInfo :=
  lines.mapIdx fun index line => { line with position := index + 1 }

namespace Turn

/-- The number that was handed out. -/
def handed (turn : Turn) : List Nat :=
  match turn.answer with
  | .started id => [id]
  | _ => []

/-- The numbers of the jobs that have left the registry. -/
def departed (turn : Turn) : List Nat :=
  turn.before.heldIds.filter fun id => id ∉ turn.after.heldIds

/-- What lets a job leave the registry: it has ended and is dropped, it is killed, or
it is waited for and its own result is answered. -/
def Releases (turn : Turn) (job : Job) : Prop :=
  (turn.event.prunes = true ∧ job.run.isFinished = true) ∨
  (∃ position info, turn.event = .kill position ∧ turn.answer = .killed (.ok info) ∧
    info.id = job.id) ∨
  (turn.event = .wait ∧ ∃ results, turn.answer = .results results ∧
    (job.id, job.run.wholeResult) ∈ results)

/-- What each event does and answers, told by the jobs that the registry holds before
it and after it, and by the pipelines of all jobs. -/
inductive Lawful (before after : Jobs) : JobsEvent → JobsAnswer → Prop
  | register {run : Run} {going : run.AtWork} {id : Nat}
      (newest : ∀ job ∈ before.started, job.id < id)
      (held : after.held = before.held ++ [{ id := id, run := run }])
      (runs : after.runs = before.runs ++ [(id, run)]) :
      Lawful before after (.register run going) (.started id)
  | list (held : after.held = before.live) (runs : after.runs = before.runs) :
      Lawful before after .list (.listing (numbered before.live))
  | prune (held : after.held = before.live) (runs : after.runs = before.runs) :
      Lawful before after .prune .nothing
  | count (held : after.held = before.live) (runs : after.runs = before.runs) :
      Lawful before after .count (.counted before.live.length)
  | isEmpty (held : after.held = before.live) (runs : after.runs = before.runs) :
      Lawful before after .isEmpty (.emptiness before.live.isEmpty)
  | kill {position : Nat} {line : JobInfo} (counted : 1 ≤ position)
      (listed : before.list.2[position - 1]? = some line)
      (held : after.held = before.live.eraseIdx (position - 1))
      (listing : after.list.2 = renumbered (before.list.2.eraseIdx (position - 1)))
      (runs : after.runs =
        before.runs.map fun (id, run) => (id, if id = line.id then run.cancel else run)) :
      Lawful before after (.kill position) (.killed (.ok { line with status := .killed }))
  | refuse {position : Nat} (unlisted : position = 0 ∨ before.list.2.length < position)
      (held : after.held = before.live) (runs : after.runs = before.runs) :
      Lawful before after (.kill position) (.killed (.error (.noSuchJob position)))
  | wait (held : after.held = [])
      (numbers : after.started.map Job.id = before.started.map Job.id)
      (ended : ∀ job ∈ after.started, ∀ post ∈ job.run.posts, post.HasEnded)
      (own : ∀ job ∈ after.started, job.id ∈ before.heldIds →
        (job.id, job.run.result) ∈ before.held.map fun job => (job.id, job.run.wholeResult)) :
      Lawful before after .wait
        (.results (before.held.map fun job => (job.id, job.run.wholeResult)))
  | work {place position : Nat} {job : Job} {run : Run} {world later : World}
      (there : before.started[place]? = some job)
      (goes : job.run.stepAt position world = some (run, later))
      (held : after.heldIds = before.heldIds)
      (runs : after.runs = before.runs.set place (job.id, run)) :
      Lawful before after (.work place position) .nothing

end Turn

namespace Jobs

/-- A job before and after something has happened: it keeps its number, is not taken
back, and is not cancelled while it is held. -/
structure Becomes (job next : Job) : Prop where
  id : next.id = job.id
  held : next.held = true → job.held = true ∧ next.run.cancelled = job.run.cancelled
  sound : job.run.Sound → next.run.Sound

/-- What is kept by everything that happens to a registry. -/
structure Orderly (jobs : Jobs) : Prop where
  ascending : (jobs.started.map Job.id).Pairwise (· < ·)
  handed : ∀ job ∈ jobs.started, job.id < jobs.nextId
  going : ∀ job ∈ jobs.held, job.run.cancelled = false
  sound : ∀ job ∈ jobs.started, job.run.Sound

theorem exists_of_forall₂ {relation : Job → Job → Prop} {jobs nexts : List Job}
    (h : List.Forall₂ relation jobs nexts) : ∀ next ∈ nexts, ∃ job ∈ jobs, relation job next := by
  induction h with
  | nil => simp
  | cons hjob _ ih =>
      intro next hnext
      rcases List.mem_cons.mp hnext with rfl | hrest
      · exact ⟨_, List.mem_cons_self, hjob⟩
      · obtain ⟨job, hmem, hbecomes⟩ := ih next hrest
        exact ⟨job, List.mem_cons_of_mem _ hmem, hbecomes⟩

theorem getElem?_of_forall₂ {relation : Job → Job → Prop} {jobs nexts : List Job}
    (h : List.Forall₂ relation jobs nexts) {place : Nat} {job : Job}
    (hjob : jobs[place]? = some job) : ∃ next, nexts[place]? = some next ∧ relation job next := by
  induction h generalizing place with
  | nil => cases hjob
  | @cons _ next _ _ hfirst _ ih =>
      cases place with
      | zero =>
          obtain rfl := Option.some.inj hjob
          exact ⟨next, rfl, hfirst⟩
      | succ place => exact ih hjob

/-- One job changes and the others stay as they are. -/
theorem forall₂_set {relation : Job → Job → Prop} (hsame : ∀ job, relation job job)
    {jobs : List Job} {place : Nat} {job next : Job} (hjob : jobs[place]? = some job)
    (hnext : relation job next) : List.Forall₂ relation jobs (jobs.set place next) := by
  refine List.forall₂_iff_get.mpr ⟨List.length_set.symm, fun index hfirst hsecond => ?_⟩
  simp only [List.get_eq_getElem, List.getElem_set]
  split
  · rename_i hplace
    subst hplace
    rwa [(List.getElem?_eq_some_iff.mp hjob).2]
  · exact hsame _

private theorem map_id_of_becomes {jobs nexts : List Job} (h : List.Forall₂ Becomes jobs nexts) :
    nexts.map Job.id = jobs.map Job.id := by
  induction h with
  | nil => rfl
  | cons hjob _ ih => rw [List.map_cons, List.map_cons, hjob.id, ih]

/-! The jobs that are held. -/

theorem held_sublist (jobs : Jobs) : jobs.held.Sublist jobs.started :=
  List.filter_sublist

private theorem heldIds_eq (jobs : Jobs) :
    jobs.heldIds =
      ((jobs.started.map fun job => (job.id, job.held)).filter Prod.snd).map Prod.fst := by
  simp [heldIds, held, List.filter_map, Function.comp_def]

theorem held_prune (jobs : Jobs) : jobs.prune.held = jobs.live := by
  simp only [held, live, prune]
  induction jobs.started with
  | nil => rfl
  | cons job rest ih =>
      cases hheld : job.held <;> cases hfinished : job.run.isFinished <;>
        simp [hheld, hfinished, ih]

theorem runs_prune (jobs : Jobs) : jobs.prune.runs = jobs.runs := by
  simp only [runs, prune, List.map_map]
  refine List.map_congr_left fun job _ => ?_
  simp only [Function.comp]
  split <;> rfl

theorem held_release (jobs : Jobs) (id : Nat) :
    (jobs.release id).held = jobs.held.filter fun job => job.id ≠ id := by
  simp only [held, release]
  induction jobs.started with
  | nil => rfl
  | cons job rest ih =>
      by_cases hid : job.id = id <;> cases hheld : job.held <;> simp [hid, hheld, ih]

theorem runs_release (jobs : Jobs) (id : Nat) :
    (jobs.release id).runs =
      jobs.runs.map fun (other, run) => (other, if other = id then run.cancel else run) := by
  simp only [runs, release, List.map_map]
  refine List.map_congr_left fun job _ => ?_
  simp only [Function.comp]
  split <;> rfl

/-- Where the numbers ascend, a number stands for one position. -/
theorem filter_eq_eraseIdx {jobs : List Job} (h : (jobs.map Job.id).Pairwise (· < ·))
    {index : Nat} {job : Job} (hjob : jobs[index]? = some job) :
    (jobs.filter fun other => other.id ≠ job.id) = jobs.eraseIdx index := by
  induction jobs generalizing index with
  | nil => cases hjob
  | cons first rest ih =>
      obtain ⟨hfirst, hrest⟩ := List.pairwise_cons.mp h
      cases index with
      | zero =>
          obtain rfl : first = job := by simpa using hjob
          have hall : ∀ other ∈ rest, other.id ≠ first.id := fun other hother =>
            Nat.ne_of_gt (hfirst _ (List.mem_map_of_mem hother))
          simpa using hall
      | succ index =>
          have hmem : job ∈ rest := List.mem_of_getElem? (by simpa using hjob)
          have hne : first.id ≠ job.id := Nat.ne_of_lt (hfirst _ (List.mem_map_of_mem hmem))
          simpa [hne] using ih hrest (by simpa using hjob)

/-! Listings. -/

private theorem listFrom_eq {jobs : List Job} (h : ∀ job ∈ jobs, job.run.cancelled = false)
    (position : Nat) :
    listFrom position jobs = jobs.mapIdx fun index job =>
      { id := job.id, position := position + index, command := job.run.command,
        status := .running } := by
  induction jobs generalizing position with
  | nil => rfl
  | cons job rest ih =>
      have hjob := h job List.mem_cons_self
      rw [listFrom, ih (fun other hother => h other (List.mem_cons_of_mem _ hother)),
        List.mapIdx_cons, Job.info, hjob]
      simp [Nat.add_comm, Nat.add_left_comm]

private theorem renumbered_eraseIdx (jobs : List Job) (index : Nat) :
    renumbered ((numbered jobs).eraseIdx index) = numbered (jobs.eraseIdx index) := by
  refine List.ext_getElem? fun position => ?_
  simp only [renumbered, numbered, List.getElem?_mapIdx, List.getElem?_eraseIdx]
  split <;> simp [Option.map_map, Function.comp_def]

/-! Waiting. -/

private theorem ended_settleEach {jobs : List Job} (hsound : ∀ job ∈ jobs, job.run.Sound)
    (world : World) :
    ∀ done ∈ (settleEach jobs world).1, ∀ post ∈ done.run.posts, post.HasEnded := by
  induction jobs generalizing world with
  | nil => simp [settleEach]
  | cons job rest ih =>
      intro done hdone
      rcases List.mem_cons.mp hdone with rfl | hrest
      · exact ((hsound job List.mem_cons_self).settle world).1.ended_of_stuck
          (job.run.stepAt_settle world)
      · exact ih (fun other hother => hsound other (List.mem_cons_of_mem _ hother)) _ done hrest

namespace Orderly

variable {jobs after : Jobs} {world : World}

private theorem ascending_held (h : jobs.Orderly) : (jobs.held.map Job.id).Pairwise (· < ·) :=
  h.ascending.sublist (jobs.held_sublist.map _)

theorem ascending_live (h : jobs.Orderly) : (jobs.live.map Job.id).Pairwise (· < ·) :=
  h.ascending_held.sublist (List.filter_sublist.map _)

private theorem nodup_heldIds (h : jobs.Orderly) : jobs.heldIds.Nodup :=
  h.ascending_held.imp Nat.ne_of_lt

/-- A job is known by its number. -/
theorem mem_held_of_id (h : jobs.Orderly) {job : Job} (hjob : job ∈ jobs.started)
    (hid : job.id ∈ jobs.heldIds) : job ∈ jobs.held := by
  obtain ⟨other, hother, hsame⟩ := List.mem_map.mp hid
  have hnodup : (jobs.started.map Job.id).Nodup := h.ascending.imp Nat.ne_of_lt
  rwa [← List.inj_on_of_nodup_map hnodup (jobs.held_sublist.subset hother) hjob hsame]

theorem list_eq (h : jobs.Orderly) : jobs.list.2 = numbered jobs.live := by
  have hgoing : ∀ job ∈ jobs.live, job.run.cancelled = false := fun job hjob =>
    h.going job (List.mem_of_mem_filter hjob)
  simp only [list, held_prune, listFrom_eq hgoing, numbered, Nat.add_comm]

/-- What happens to the jobs one by one keeps the registry in order. -/
theorem of_becomes (h : jobs.Orderly) (hnext : after.nextId = jobs.nextId)
    (hjobs : List.Forall₂ Becomes jobs.started after.started) : after.Orderly := by
  have hids := map_id_of_becomes hjobs
  have hmem := exists_of_forall₂ hjobs
  refine ⟨hids ▸ h.ascending, ?_, ?_, ?_⟩
  · intro next hmore
    obtain ⟨job, hjob, hbecomes⟩ := hmem next hmore
    rw [hnext, hbecomes.id]
    exact h.handed job hjob
  · intro next hmore
    obtain ⟨hstarted, hheld⟩ := List.mem_filter.mp hmore
    obtain ⟨job, hjob, hbecomes⟩ := hmem next hstarted
    obtain ⟨hbefore, hsame⟩ := hbecomes.held hheld
    rw [hsame]
    exact h.going job (List.mem_filter.mpr ⟨hjob, hbefore⟩)
  · intro next hmore
    obtain ⟨job, hjob, hbecomes⟩ := hmem next hmore
    exact hbecomes.sound (h.sound job hjob)

private theorem prune (h : jobs.Orderly) : jobs.prune.Orderly := by
  refine h.of_becomes rfl (List.forall₂_map_right_iff.mpr (List.forall₂_same.mpr ?_))
  intro job _
  split
  · exact ⟨rfl, nofun, id⟩
  · exact ⟨rfl, fun hheld => ⟨hheld, rfl⟩, id⟩

private theorem release (h : jobs.Orderly) (id : Nat) : (jobs.release id).Orderly := by
  refine h.of_becomes rfl (List.forall₂_map_right_iff.mpr (List.forall₂_same.mpr ?_))
  intro job _
  split
  · exact ⟨rfl, nofun, Run.Sound.cancel⟩
  · exact ⟨rfl, fun hheld => ⟨hheld, rfl⟩, fun hsound => hsound⟩

/-- A new job has a number that is greater than all before. -/
theorem register (h : jobs.Orderly) {run : Run} (hrun : run.AtWork) :
    (jobs.register run).1.Orderly ∧
      Turn.Lawful jobs (jobs.register run).1 (.register run hrun)
        (.started (jobs.register run).2) := by
  obtain ⟨hsound, hgoing⟩ := hrun.sound
  have hheld : (jobs.register run).1.held = jobs.held ++ [{ id := jobs.nextId, run := run }] := by
    simp [Jobs.register, held]
  refine ⟨⟨?_, ?_, ?_, ?_⟩, .register h.handed hheld (by simp [Jobs.register, runs])⟩
  · simp only [Jobs.register, List.map_append, List.map_cons, List.map_nil]
    refine List.pairwise_append.mpr ⟨h.ascending, List.pairwise_singleton _ _, ?_⟩
    intro first hfirst second hsecond
    obtain ⟨job, hjob, rfl⟩ := List.mem_map.mp hfirst
    rw [List.mem_singleton.mp hsecond]
    exact h.handed job hjob
  · intro job hjob
    rcases List.mem_append.mp hjob with hold | hnew
    · exact Nat.lt_succ_of_lt (h.handed job hold)
    · rw [List.mem_singleton.mp hnew]
      exact Nat.lt_succ_self _
  · rw [hheld]
    intro job hjob
    rcases List.mem_append.mp hjob with hold | hnew
    · exact h.going job hold
    · rw [List.mem_singleton.mp hnew]
      exact hgoing
  · intro job hjob
    rcases List.mem_append.mp hjob with hold | hnew
    · exact h.sound job hold
    · rw [List.mem_singleton.mp hnew]
      exact hsound

/-- A job makes a step. -/
theorem work (h : jobs.Orderly) {place position : Nat} {later : World}
    (hwork : jobs.work world place position = some (after, later)) :
    after.Orderly ∧ Turn.Lawful jobs after (.work place position) .nothing := by
  obtain ⟨job, run, hjob, hstep, rfl⟩ := work_cases hwork
  have hmove : job.run.move world (.step position) = some (run, later) := hstep
  have hfollow : job.run.follow world ([position].map .step) = some (run, later) := by
    rw [List.map_singleton, Run.follow, hmove]
    rfl
  have hcancelled : run.cancelled = job.run.cancelled := Run.uncancelled_of_steps hfollow
  have hjobs : List.Forall₂ Becomes jobs.started (jobs.started.set place { job with run }) :=
    forall₂_set (fun _ => ⟨rfl, fun hheld => ⟨hheld, rfl⟩, id⟩) hjob
      ⟨rfl, fun hheld => ⟨hheld, hcancelled⟩, fun hsound => hsound.move hmove⟩
  refine ⟨h.of_becomes rfl hjobs, .work hjob hstep ?_ ?_⟩
  · have hsame : (jobs.started.set place { job with run }).map (fun job => (job.id, job.held)) =
        jobs.started.map fun job => (job.id, job.held) := map_set_of_getElem? hjob rfl
    rw [heldIds_eq, heldIds_eq, hsame]
  · simp only [runs, List.map_set]

/-- A job is killed by its position in the listing. -/
theorem kill (h : jobs.Orderly) (position : Nat) :
    (jobs.kill position).1.Orderly ∧
      Turn.Lawful jobs (jobs.kill position).1 (.kill position)
        (.killed (jobs.kill position).2) := by
  have hlength : jobs.list.2.length = jobs.live.length := by simp [h.list_eq, numbered]
  by_cases hzero : position = 0
  · have hkill : jobs.kill position = (jobs.prune, .error (.noSuchJob position)) := by
      simp [Jobs.kill, hzero]
    rw [hkill]
    exact ⟨h.prune, .refuse (.inl hzero) jobs.held_prune jobs.runs_prune⟩
  cases hjob : jobs.live[position - 1]? with
  | none =>
      have hkill : jobs.kill position = (jobs.prune, .error (.noSuchJob position)) := by
        simp [Jobs.kill, hzero, held_prune, hjob]
      have hbeyond := List.getElem?_eq_none_iff.mp hjob
      rw [hkill]
      exact ⟨h.prune, .refuse (.inr (by omega)) jobs.held_prune jobs.runs_prune⟩
  | some job =>
      let line : JobInfo :=
        { id := job.id, position := position - 1 + 1, command := job.run.command,
          status := .running }
      have hposition : position - 1 + 1 = position := by omega
      have hkill : jobs.kill position =
          (jobs.prune.release job.id, .ok { line with status := .killed }) := by
        simp [Jobs.kill, hzero, held_prune, hjob, Job.info, Run.cancel, line, hposition]
      have hafter : (jobs.prune.release job.id).Orderly := h.prune.release job.id
      have hheld : (jobs.prune.release job.id).held = jobs.live.eraseIdx (position - 1) := by
        rw [held_release, held_prune, filter_eq_eraseIdx h.ascending_live hjob]
      have hlive : (jobs.prune.release job.id).live = jobs.live.eraseIdx (position - 1) := by
        rw [live, hheld, List.filter_eq_self]
        intro other hother
        exact (List.mem_filter.mp (List.mem_of_mem_eraseIdx hother)).2
      have hlisted : jobs.list.2[position - 1]? = some line := by
        simp [h.list_eq, numbered, hjob, line]
      rw [hkill]
      refine ⟨hafter, .kill (by omega) hlisted hheld ?_ ?_⟩
      · rw [hafter.list_eq, h.list_eq, hlive, renumbered_eraseIdx]
      · rw [runs_release, runs_prune]

/-- All jobs are run to their end, and those that were held are answered for. -/
theorem wait (h : jobs.Orderly) (world : World) :
    (jobs.waitAll world).1.Orderly ∧
      Turn.Lawful jobs (jobs.waitAll world).1 .wait (.results (jobs.waitAll world).2.2) := by
  have hsettled : List.Forall₂ (fun job done => ∃ before : World,
      done = ({ job with run := (job.run.settle before).1, held := false } : Job))
      jobs.started (jobs.waitAll world).1.started := by
    refine List.forall₂_map_right_iff.mpr ((forall₂_settleEach jobs.started world).imp ?_)
    rintro job _ ⟨before, rfl⟩
    exact ⟨before, rfl⟩
  have hjobs : List.Forall₂ Becomes jobs.started (jobs.waitAll world).1.started := by
    refine hsettled.imp ?_
    rintro job _ ⟨before, rfl⟩
    exact ⟨rfl, nofun, fun hsound => (hsound.settle before).1⟩
  have hresults := results_settleEach (fun job hjob => h.sound job (jobs.held_sublist.subset hjob))
    h.going world
  have hanswer : (jobs.waitAll world).2.2 =
      jobs.held.map fun job => (job.id, job.run.wholeResult) := hresults
  rw [hanswer]
  refine ⟨h.of_becomes rfl hjobs, .wait ?_ (map_id_of_becomes hjobs) ?_ ?_⟩
  · simp [waitAll, held]
  · intro next hnext
    obtain ⟨done, hdone, rfl⟩ := List.mem_map.mp hnext
    exact ended_settleEach h.sound world done hdone
  · intro next hnext hid
    obtain ⟨job, hjob, before, rfl⟩ := exists_of_forall₂ hsettled next hnext
    have hheld : job ∈ jobs.held := h.mem_held_of_id hjob hid
    have hresult := ((h.sound job hjob).settle before).2 (h.going job hheld)
    exact List.mem_map.mpr ⟨job, hheld, by rw [hresult]⟩

/-- Everything that happens keeps a registry in order and does what it is to do. -/
theorem handle (h : jobs.Orderly) {event : JobsEvent} {answer : JobsAnswer}
    (hhappens : jobs.handle world event = some (after, answer)) :
    after.Orderly ∧ Turn.Lawful jobs after event answer := by
  cases event with
  | work place position =>
      obtain ⟨⟨next, later⟩, hwork, heq⟩ := Option.map_eq_some_iff.mp hhappens
      simp only [Prod.mk.injEq] at heq
      obtain ⟨rfl, rfl⟩ := heq
      exact h.work hwork
  | register run going =>
      obtain ⟨rfl, rfl⟩ := Prod.mk.inj (Option.some.inj hhappens)
      exact h.register going
  | list =>
      obtain ⟨rfl, rfl⟩ := Prod.mk.inj (Option.some.inj hhappens)
      rw [h.list_eq]
      exact ⟨h.prune, .list jobs.held_prune jobs.runs_prune⟩
  | kill position =>
      obtain ⟨rfl, rfl⟩ := Prod.mk.inj (Option.some.inj hhappens)
      exact h.kill position
  | prune =>
      obtain ⟨rfl, rfl⟩ := Prod.mk.inj (Option.some.inj hhappens)
      exact ⟨h.prune, .prune jobs.held_prune jobs.runs_prune⟩
  | count =>
      obtain ⟨rfl, rfl⟩ := Prod.mk.inj (Option.some.inj hhappens)
      have hcount : jobs.count = (jobs.prune, jobs.live.length) := by
        simp only [Jobs.count, held_prune]
      rw [hcount]
      exact ⟨h.prune, .count jobs.held_prune jobs.runs_prune⟩
  | isEmpty =>
      obtain ⟨rfl, rfl⟩ := Prod.mk.inj (Option.some.inj hhappens)
      have hempty : jobs.isEmpty = (jobs.prune, jobs.live.isEmpty) := by
        simp only [Jobs.isEmpty, Jobs.count, held_prune]
        cases jobs.live <;> simp
      rw [hempty]
      exact ⟨h.prune, .isEmpty jobs.held_prune jobs.runs_prune⟩
  | wait =>
      obtain ⟨rfl, rfl⟩ := Prod.mk.inj (Option.some.inj hhappens)
      exact h.wait world

end Orderly

end Jobs

namespace Turn

variable {turn : Turn}

theorem mem_heldIds {jobs : Jobs} {job : Job} (h : job ∈ jobs.held) : job.id ∈ jobs.heldIds :=
  List.mem_map_of_mem h

/-- Only a new job comes to those that are held. -/
theorem Lawful.heldIds (h : Lawful turn.before turn.after turn.event turn.answer) :
    (turn.handed = [] ∧ turn.after.heldIds.Sublist turn.before.heldIds) ∨
      ∃ id, turn.handed = [id] ∧ turn.after.heldIds = turn.before.heldIds ++ [id] := by
  obtain ⟨before, event, answer, after⟩ := turn
  have hlive : before.live.Sublist before.held := List.filter_sublist
  have hlaw : Lawful before after event answer := h
  cases hlaw with
  | @register run going id _ hheld => exact .inr ⟨id, rfl, by simp [Jobs.heldIds, hheld]⟩
  | list hheld | prune hheld | count hheld | isEmpty hheld | refuse _ hheld =>
      left
      refine ⟨rfl, ?_⟩
      rw [Jobs.heldIds, hheld]
      exact hlive.map _
  | kill _ _ hheld =>
      left
      refine ⟨rfl, ?_⟩
      rw [Jobs.heldIds, hheld]
      exact ((List.eraseIdx_sublist _ _).trans hlive).map _
  | wait hheld =>
      left
      refine ⟨rfl, ?_⟩
      rw [Jobs.heldIds, hheld]
      exact List.nil_sublist _
  | work _ _ hheld => exact .inl ⟨rfl, hheld ▸ List.Sublist.refl _⟩

/-- The numbers of all jobs grow by the one that is handed out. -/
theorem Lawful.numbers (h : Lawful turn.before turn.after turn.event turn.answer) :
    turn.after.started.map Job.id = turn.before.started.map Job.id ++ turn.handed := by
  obtain ⟨before, event, answer, after⟩ := turn
  have hruns (jobs : Jobs) : jobs.started.map Job.id = jobs.runs.map Prod.fst := by
    simp [Jobs.runs, Function.comp_def]
  have hlaw : Lawful before after event answer := h
  rw [hruns, hruns]
  cases hlaw with
  | register _ _ hmore => simp [handed, hmore]
  | list _ hsame | prune _ hsame | count _ hsame | isEmpty _ hsame | refuse _ _ hsame =>
    simp [handed, hsame]
  | kill _ _ _ _ hcancel => simp [handed, hcancel, Function.comp_def]
  | wait _ hnumbers => simpa [handed, hruns] using hnumbers
  | @work place position job run _ _ hthere _ _ hset =>
    have hself : before.runs[place]? = some (job.id, job.run) := by
      simp [Jobs.runs, hthere]
    have hsame : (before.runs.set place (job.id, run)).map Prod.fst = before.runs.map Prod.fst :=
      Jobs.map_set_of_getElem? hself rfl
    simp only [handed, List.append_nil, hset, hsame]

/-- A job that has left was let go. -/
theorem Lawful.releases (h : Lawful turn.before turn.after turn.event turn.answer)
    (hbefore : turn.before.Orderly) {job : Job} (hjob : job ∈ turn.before.held)
    (hleft : job.id ∈ turn.departed) : turn.Releases job := by
  obtain ⟨before, event, answer, after⟩ := turn
  have hgone : job.id ∉ after.heldIds := by simpa using (List.mem_filter.mp hleft).2
  have hended (hheld : after.held = before.live) : job.run.isFinished = true := by
    by_contra hgoing
    refine hgone (mem_heldIds ?_)
    rw [hheld]
    exact List.mem_filter.mpr ⟨hjob, by simpa using hgoing⟩
  have hlaw : Lawful before after event answer := h
  cases hlaw with
  | register _ hheld _ =>
    exact absurd (mem_heldIds (hheld ▸ List.mem_append_left _ hjob)) hgone
  | work _ _ hheld _ => exact absurd (hheld ▸ mem_heldIds hjob) hgone
  | list hheld | prune hheld | count hheld | isEmpty hheld | refuse _ hheld =>
    exact .inl ⟨rfl, hended hheld⟩
  | @kill position line _ hlisted hheld =>
    by_cases hfinished : job.run.isFinished = true
    · exact .inl ⟨rfl, hfinished⟩
    · refine .inr (.inl ⟨position, _, rfl, rfl, ?_⟩)
      rw [hbefore.list_eq, numbered, List.getElem?_mapIdx] at hlisted
      obtain ⟨other, hother, rfl⟩ := Option.map_eq_some_iff.mp hlisted
      by_contra hdiffers
      refine hgone (mem_heldIds ?_)
      rw [hheld, ← Jobs.filter_eq_eraseIdx hbefore.ascending_live hother]
      have hlive : job ∈ before.live := List.mem_filter.mpr ⟨hjob, by simpa using hfinished⟩
      exact List.mem_filter.mpr ⟨hlive, by simpa using Ne.symm hdiffers⟩
  | wait =>
    exact .inr (.inr ⟨rfl, _, rfl, List.mem_map_of_mem hjob⟩)

/-- The jobs that were held and the new one have left or are held. -/
theorem accounted (h : Lawful turn.before turn.after turn.event turn.answer)
    (hbefore : turn.before.heldIds.Nodup) :
    (turn.before.heldIds ++ turn.handed).Perm (turn.departed ++ turn.after.heldIds) := by
  rcases h.heldIds with ⟨hhanded, hsub⟩ | ⟨id, hhanded, hheld⟩
  · rw [hhanded, List.append_nil, departed]
    have hafter : (turn.before.heldIds.filter fun id => id ∈ turn.after.heldIds).Perm
        turn.after.heldIds := by
      refine (List.perm_ext_iff_of_nodup (hbefore.filter _) (hbefore.sublist hsub)).mpr ?_
      intro id
      simpa using fun hmem => hsub.subset hmem
    have hsplit := List.filter_append_perm (fun id => decide (id ∉ turn.after.heldIds))
      turn.before.heldIds
    refine hsplit.symm.trans (List.Perm.append_left _ ?_)
    simpa using hafter
  · have hstay : turn.departed = [] := by
      rw [departed, hheld, List.filter_eq_nil_iff]
      intro other hother
      simp [hother]
    rw [hhanded, hstay, hheld]
    exact .refl _

end Turn

namespace Jobs

theorem History.orderly {turns : List Turn} {jobs : Jobs} (h : History turns jobs) :
    jobs.Orderly := by
  induction h with
  | start => exact ⟨.nil, nofun, nofun, nofun⟩
  | turn _ happens ih => exact (ih.handle happens).1

/-- Every turn of a history began in order. -/
theorem History.turn_lawful {turns : List Turn} {jobs : Jobs} (h : History turns jobs) :
    ∀ turn ∈ turns, turn.before.Orderly ∧
      Turn.Lawful turn.before turn.after turn.event turn.answer := by
  induction h with
  | start => nofun
  | turn before happens ih =>
      intro turn hturn
      rcases List.mem_append.mp hturn with hold | hnew
      · exact ih turn hold
      · obtain rfl := List.mem_singleton.mp hnew
        exact ⟨before.orderly, (before.orderly.handle happens).2⟩

/-- The numbers that were handed out are those of all jobs that were started. -/
theorem History.handed_eq {turns : List Turn} {jobs : Jobs} (h : History turns jobs) :
    turns.flatMap Turn.handed = jobs.started.map Job.id := by
  induction h with
  | start => rfl
  | @turn turns jobs after event answer world before happens ih =>
      let turn : Turn := { before := jobs, event, answer, after }
      have hlaw : Turn.Lawful turn.before turn.after turn.event turn.answer :=
        (before.orderly.handle happens).2
      rw [List.flatMap_append, ih, List.flatMap_singleton]
      exact hlaw.numbers.symm

/-- Every number that was handed out is that of a job that has left, or of one that is
held, and each job has left once. -/
theorem History.handed_perm {turns : List Turn} {jobs : Jobs} (h : History turns jobs) :
    (turns.flatMap Turn.handed).Perm (turns.flatMap Turn.departed ++ jobs.heldIds) := by
  induction h with
  | start => exact .refl _
  | @turn turns jobs after event answer world before happens ih =>
      let turn : Turn := { before := jobs, event, answer, after }
      have hlaw : Turn.Lawful turn.before turn.after turn.event turn.answer :=
        (before.orderly.handle happens).2
      have hmore : (jobs.heldIds ++ turn.handed).Perm (turn.departed ++ after.heldIds) :=
        Turn.accounted hlaw before.orderly.nodup_heldIds
      rw [List.flatMap_append, List.flatMap_singleton, List.flatMap_append, List.flatMap_singleton,
        List.append_assoc]
      refine (ih.append_right turn.handed).trans ?_
      rw [List.append_assoc]
      exact hmore.append_left _

/-- In every history the numbers that are handed out ascend, the registry holds its
jobs in the order of their numbers and none that was cancelled, every job leaves once
and only when it is let go, and every event does and answers what it is to. -/
theorem registry_accounts {turns : List Turn} {jobs : Jobs} (h : History turns jobs) :
    (turns.flatMap Turn.handed).Pairwise (· < ·) ∧
      jobs.heldIds.Pairwise (· < ·) ∧
      (∀ job ∈ jobs.held, job.run.cancelled = false) ∧
      (∀ line ∈ jobs.list.2, line.status = .running) ∧
      (turns.flatMap Turn.handed).Perm (turns.flatMap Turn.departed ++ jobs.heldIds) ∧
      ∀ turn ∈ turns,
        Turn.Lawful turn.before turn.after turn.event turn.answer ∧
        ∀ job ∈ turn.before.held, job.id ∈ turn.departed → turn.Releases job := by
  refine ⟨h.handed_eq ▸ h.orderly.ascending, h.orderly.ascending_held, h.orderly.going, ?_,
    h.handed_perm, ?_⟩
  · intro line hline
    rw [h.orderly.list_eq] at hline
    obtain ⟨index, hindex, rfl⟩ := List.mem_mapIdx.mp hline
    rfl
  · intro turn hturn
    obtain ⟨hbefore, hlaw⟩ := h.turn_lawful turn hturn
    exact ⟨hlaw, fun job hjob hleft => hlaw.releases hbefore hjob hleft⟩

/-- A job is started, listed, killed, and has left. -/
theorem registry_accounts_sample :
    ∃ (turns : List Turn) (jobs : Jobs), History turns jobs ∧
      turns.flatMap Turn.handed = [1] ∧ turns.flatMap Turn.departed = [1] ∧
      ∀ turn ∈ turns, ∀ job ∈ turn.before.held, job.id ∈ turn.departed → turn.Releases job := by
  let run := Run.start Sample.pipeline
  let going : run.AtWork := .start Sample.build_line
  let first : Jobs := (register {} run).1
  let second : Jobs := first.list.1
  let third : Jobs := (second.kill 1).1
  have hregister : Jobs.handle {} Sample.world (.register run going) = some (first, .started 1) :=
    rfl
  have hlist : first.handle Sample.world .list = some (second, .listing first.list.2) := rfl
  have hkill : second.handle Sample.world (.kill 1) = some (third, .killed (second.kill 1).2) :=
    rfl
  have history : History
      ([] ++
        [{ before := {}, event := .register run going, answer := .started 1, after := first }] ++
        [{ before := first, event := .list, answer := .listing first.list.2, after := second }] ++
        [{ before := second, event := .kill 1, answer := .killed (second.kill 1).2,
           after := third }]) third :=
    ((History.start.turn hregister).turn hlist).turn hkill
  exact ⟨_, _, history, by decide +kernel, by decide +kernel,
    fun turn hturn => ((registry_accounts history).2.2.2.2.2 turn hturn).2⟩

end Jobs

end LineShell
