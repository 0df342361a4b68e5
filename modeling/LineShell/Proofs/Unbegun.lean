import LineShell.Proofs.Deliveries
import LineShell.Proofs.Finished
import LineShell.Proofs.KillLines

/-!
Pipelines that are cancelled before any of their workers has begun, as a job is that is
killed right after it was started. Every worker begins all the same, and only then meets
the token: a source when it is about to hand on its first line, and a worker that reads
lines when it is about to ask for its first one. What it does to begin is all that it
does, so a redirect has opened its file, and a change of directory is done. Only a worker
that has nothing to hand on and nothing to ask for ends by itself.
-/

namespace LineShell

/-- A step of a worker of a pipeline, with the world before it and after it. -/
structure StepRecord where
  position : Nat
  before : World
  after : World

/-- The first step of the worker at a position. -/
def firstAt (records : List StepRecord) (position : Nat) : Option StepRecord :=
  records.find? fun record => record.position = position

/-- The steps that workers of a pipeline take one after the other, each in whatever world
it finds. -/
inductive Run.Course (run : Run) : List StepRecord → Run → Prop
  | start : Course run [] run
  | step {records : List StepRecord} {before next : Run} {position : Nat} {world later : World}
      (earlier : Course run records before)
      (goes : before.stepAt position world = some (next, later)) :
      Course run (records ++ [{ position, before := world, after := later }]) next

/-- What a verb makes of a world when it begins. A redirect makes an empty file where its
path leads to nothing but could lead to a file, if that is allowed, and leaves whatever is
there as it is. -/
inductive Verb.StartEffect (world : World) : Verb → World → Prop
  | moved (change : DirectoryChange) : StartEffect world (.cd change) (world.changeDirectory change)
  | created {path : Text} {place : Place} (vacant : world.files.locate true path = .vacant place)
      (allowed : world.files.access place = .full) :
      StartEffect world (.redirect path)
        { world with files := world.files.insert place (.file []) }
  | kept {path : Text}
      (taken : ∀ place, world.files.locate true path = .vacant place →
        world.files.access place ≠ .full) :
      StartEffect world (.redirect path) world
  | idle {verb : Verb} (stays : ∀ change, verb ≠ .cd change)
      (opens : ∀ path, verb ≠ .redirect path) : StartEffect world verb world

/-- What the step of a worker does to the world, when some others came before it. Only the
first step of a worker does anything. -/
def StepRecord.Lawful (verbs : List Verb) (earlier : List StepRecord) (record : StepRecord) :
    Prop :=
  ∃ verb, verbs[record.position]? = some verb ∧
    if (firstAt earlier record.position).isSome then record.after = record.before
    else verb.StartEffect record.before record.after

namespace Verb

variable {verb : Verb} {world later : World}

private theorem startEffect_start (verb : Verb) (world : World) :
    verb.StartEffect world (Body.start world verb).2 := by
  cases verb with
  | cd change => exact .moved change
  | redirect path =>
      simp only [Body.start, FileTree.openFile?]
      cases hpath : world.files.locate true path with
      | vacant place =>
          by_cases hfull : world.files.access place = .full
          · simp only [if_pos hfull]
            exact .created hpath hfull
          · simp only [if_neg hfull]
            exact .kept fun other hother =>
              FileTree.Destination.vacant.inj (hpath.symm.trans hother) ▸ hfull
      | found place node =>
          cases node with
          | file content =>
              by_cases hread : world.files.access place = .read
              · simpa only [if_pos hread] using StartEffect.kept (by simp [hpath])
              · simpa only [if_neg hread] using StartEffect.kept (by simp [hpath])
          | _ => exact .kept (by simp [hpath])
      | missing => exact .kept (by simp [hpath])
      | nowhere => exact .kept (by simp [hpath])
  | _ => exact .idle (by simp) (by simp)

/-- Nothing happens to the world when a verb begins that writes lines. -/
theorem StartEffect.eq_of_producesOutput (h : verb.StartEffect world later)
    (hproduces : verb.producesOutput = true) : later = world := by
  cases h with
  | idle => rfl
  | _ => cases hproduces

/-- How a worker of a cancelled pipeline ends that begins in some world. -/
def cancelledExit (verb : Verb) (seen : World) : Exit :=
  if verb.isSolitary ∨ (verb.isSource ∧ verb.reads seen = []) then .finished else .cancelled

private theorem cancelledExit_of_isSource (h : verb.isSource = true) (seen : World) :
    verb.cancelledExit seen = if verb.reads seen = [] then .finished else .cancelled := by
  have hsolitary : verb.isSolitary = false := by
    rw [← Bool.not_eq_true, isSolitary_iff, (Bool.and_eq_true_iff.mp h).1]
    simp
  simp only [cancelledExit, hsolitary, h, Bool.false_eq_true, false_or, true_and]

end Verb

/-! Workers that have met the token, or are about to. -/

namespace Worker

variable {verb : Verb} {exit : Exit} {worker next : Worker} {wiring after : Wiring}
  {world later : World} {first : Option StepRecord}

/-- A worker that has begun and, if the token has fired, will do nothing but come to this
end. -/
inductive EndsWith : Exit → Worker → Prop
  | reading (reader : Reader) : EndsWith .cancelled (.running (.reading reader))
  | emitting (line : Text) (next : Continuation) :
      EndsWith .cancelled (.running (.emitting line next))
  | ended (ending : Ending) : EndsWith ending.exit (.running (.ended ending))
  | leaving (exit : Exit) : EndsWith exit (.leaving exit)
  | gone (exit : Exit) : EndsWith exit (.gone exit)

private theorem endsWith_flushing (lines : List Text) :
    EndsWith (if lines = [] then .finished else .cancelled) (.running (Body.flushing lines)) := by
  cases lines with
  | nil => exact .ended .completed
  | cons line rest => exact .emitting line (.flush rest)

private theorem endsWith_start (verb : Verb) (seen : World) :
    EndsWith (verb.cancelledExit seen) (.running (Body.start seen verb).1) := by
  cases verb with
  | cat path =>
      rw [Verb.cancelledExit_of_isSource rfl]
      exact endsWith_flushing (seen.fileLines path)
  | ls =>
      rw [Verb.cancelledExit_of_isSource rfl]
      exact endsWith_flushing seen.listing
  | pwd => exact .emitting seen.directory (.flush [])
  | cd change => exact .ended .completed
  | exit => exact .ended .completed
  | grep query => exact .reading (.filter (.matching query))
  | uniq => exact .reading (.filter (.distinct []))
  | wc => exact .reading (.filter (.counting {}))
  | head => exact .reading (.filter (.first keptLines))
  | tail => exact .reading (.filter (.last []))
  | print => exact .reading .console
  | redirect path =>
      simp only [Body.start]
      split
      · exact .reading _
      · exact .reading .nowhere

/-- When the token has fired a worker that has begun leaves the world alone, and comes
nearer to the end that is settled for it. -/
theorem EndsWith.step (h : EndsWith exit worker)
    (hstep : worker.step wiring world = some (next, after, later))
    (hfired : wiring.cancelled = true)
    (hopen : worker.isReader = true → wiring.isReadable = true) :
    EndsWith exit next ∧ later = world := by
  -- The token is looked at before the channel, so no step is left that would use one.
  cases h with
  | reading reader =>
      cases goes_of_step hstep with
      | work hbody =>
          cases hbody with
          | shut _ hclosed => simp [hopen rfl] at hclosed
          | stopReading => exact ⟨.ended .cancelled, rfl⟩
          | look _ _ hgoing => simp [hfired] at hgoing
  | emitting line continuation =>
      cases goes_of_step hstep with
      | work hbody =>
          cases hbody with
          | stopEmitting => exact ⟨.ended .cancelled, rfl⟩
          | emit _ _ hgoing => simp [hfired] at hgoing
  | ended ending =>
      cases goes_of_step hstep with
      | work hbody => cases hbody
      | giveUp => exact ⟨.leaving .cancelled, rfl⟩
      | mark hown =>
          rw [hown]
          exact ⟨.leaving .finished, rfl⟩
  | leaving exit =>
      cases goes_of_step hstep with
      | leave => exact ⟨.gone exit, rfl⟩
  | gone exit => cases hstep

/-- A worker of a cancelled pipeline as its verb and its first step tell it. -/
inductive AfterFirstStep (verb : Verb) : Option StepRecord → Worker → Prop
  | unbegun : AfterFirstStep verb none (.running (.fresh verb))
  | begun {record : StepRecord} {worker : Worker}
      (ends : EndsWith (verb.cancelledExit record.before) worker) :
      AfterFirstStep verb (some record) worker

private theorem AfterFirstStep.step (h : worker.AfterFirstStep verb first)
    (hstep : worker.step wiring world = some (next, after, later))
    (hfired : wiring.cancelled = true)
    (hopen : worker.isReader = true → wiring.isReadable = true) (position : Nat) :
    next.AfterFirstStep verb (first.or (some { position, before := world, after := later })) ∧
      if first.isSome then later = world else verb.StartEffect world later := by
  cases h with
  | unbegun =>
      cases goes_of_step hstep with
      | work hbody =>
          cases hbody with
          | begin => exact ⟨.begun (endsWith_start verb world), verb.startEffect_start world⟩
  | begun hends =>
      obtain ⟨hnext, hworld⟩ := hends.step hstep hfired hopen
      exact ⟨.begun hnext, hworld⟩

end Worker

/-! Rows of verbs. -/

namespace Row

variable {tree : FileTree} {verbs : List Verb} {verb : Verb}

/-- A row begins with a verb that stands alone or with a source, and all verbs behind that
read lines. -/
theorem exists_first (h : Row tree verbs) :
    ∃ first rest, verbs = first :: rest ∧ (∀ verb ∈ rest, verb.acceptsInput = true) ∧
      (first.isSolitary = true ↔ rest = []) := by
  cases h with
  | @solitary verb halone => exact ⟨verb, [], rfl, nofun, by simp [halone]⟩
  | @line source filters sink hline =>
      refine ⟨source, filters ++ [sink], rfl, hline.acceptsInput, ?_⟩
      rw [Verb.isSolitary_iff, (Bool.and_eq_true_iff.mp hline.reads).1]
      simp

private theorem ne_nil (h : Row tree verbs) : verbs ≠ [] := by
  obtain ⟨first, rest, rfl, -⟩ := h.exists_first
  exact List.cons_ne_nil first rest

/-- Every verb of a row but the last writes lines. -/
theorem producesOutput (h : Row tree verbs) {position : Nat}
    (hverb : verbs[position]? = some verb) (hplace : position ≠ verbs.length - 1) :
    verb.producesOutput = true := by
  obtain ⟨hposition, rfl⟩ := List.getElem?_eq_some_iff.mp hverb
  have hfront : position < verbs.dropLast.length := by
    rw [List.length_dropLast]
    omega
  have hmem : verbs[position] ∈ verbs.dropLast := by
    rw [← List.getElem_dropLast hfront]
    exact List.getElem_mem hfront
  generalize verbs[position] = verb at hmem ⊢
  cases h with
  | solitary => cases hmem
  | line hline =>
      rw [List.dropLast_concat] at hmem
      rcases List.mem_cons.mp hmem with rfl | hfilter
      · exact (Bool.and_eq_true_iff.mp hline.reads).1
      · exact (Bool.and_eq_true_iff.mp (hline.passes _ hfilter)).2

end Row

private theorem firstAt_concat (records : List StepRecord) (record : StepRecord) (position : Nat) :
    firstAt (records ++ [record]) position =
      (firstAt records position).or (if record.position = position then some record else none) := by
  rw [firstAt, List.find?_append, firstAt, List.find?_singleton]
  simp only [decide_eq_true_eq]

/-- In a pipeline whose channels are in order every worker that may still ask for a line
has a channel to ask. -/
theorem Post.WellWired.hasLiveInbox {before : Option Worker} {posts : List Post}
    (h : WellWired before posts) : ∀ post ∈ posts, post.HasLiveInbox := by
  induction posts generalizing before with
  | nil => simp
  | cons first rest ih =>
      obtain ⟨-, hliveInbox, hrest⟩ := h
      exact List.forall_mem_cons.mpr ⟨hliveInbox, ih hrest⟩

private theorem Post.HasLiveInbox.isReadable {post : Post} {rest : List Post} {cancelled : Bool}
    (h : post.HasLiveInbox) (hreader : post.worker.isReader = true) :
    (post.wiring cancelled rest).isReadable = true := by
  obtain ⟨channel, hinbox, hlive⟩ := h hreader
  simp [Wiring.isReadable, Post.wiring, hinbox, (Bool.and_eq_true_iff.mp hlive).1]

private theorem Run.workers_of_build {pipeline : Pipeline} {directory line : Text}
    {tree cleared : FileTree}
    (hbuild : CommandLine.build directory tree line = (cleared, .ok pipeline)) :
    (start pipeline).workers = pipeline.verbs.map fun verb => .running (.fresh verb) := by
  rw [workers, (CommandLine.row_of_build hbuild).2, Post.map_worker_lined]

/-- What holds of a pipeline with these verbs that was cancelled before it had begun, after
some steps of its workers. -/
structure CancelledUnbegun (verbs : List Verb) (records : List StepRecord) (run : Run) : Prop where
  sound : run.Sound
  fired : run.cancelled = true
  asks : run.exitRequested = decide (verbs = [.exit])
  length : run.workers.length = verbs.length
  workers : ∀ (position : Nat) (verb : Verb) (worker : Worker), verbs[position]? = some verb →
    run.workers[position]? = some worker → worker.AfterFirstStep verb (firstAt records position)

namespace CancelledUnbegun

variable {verbs : List Verb} {records : List StepRecord} {run next after : Run} {position : Nat}
  {tree : FileTree} {world later : World} {moves : List Move}

private theorem start {pipeline : Pipeline} {directory line : Text} {tree cleared : FileTree}
    (hbuild : CommandLine.build directory tree line = (cleared, .ok pipeline)) :
    CancelledUnbegun pipeline.verbs [] (Run.start pipeline).cancel := by
  have hworkers : (Run.start pipeline).cancel.workers =
      pipeline.verbs.map fun verb => .running (.fresh verb) := Run.workers_of_build hbuild
  refine ⟨(Run.AtWork.start hbuild).sound.1.cancel, rfl,
    (CommandLine.row_of_build hbuild).1.requestsExit, ?_, ?_⟩
  · rw [hworkers, List.length_map]
  · intro position verb worker hverb hworker
    rw [hworkers, List.getElem?_map, hverb] at hworker
    obtain rfl := Option.some.inj hworker
    exact .unbegun

private theorem step (h : CancelledUnbegun verbs records run)
    (hgoes : run.stepAt position world = some (next, later)) :
    CancelledUnbegun verbs (records ++ [{ position, before := world, after := later }]) next ∧
      StepRecord.Lawful verbs records { position, before := world, after := later } := by
  have hmove : run.move world (.step position) = some (next, later) := hgoes
  obtain ⟨_, posts, heq, rfl, hstep⟩ | ⟨hcancel, -⟩ := Run.move_cases hmove
  swap
  · cases hcancel
  obtain rfl := Move.step.inj heq
  obtain ⟨post, rest, worker, wiring, hdrop, hpost, -, hworkers⟩ := Post.single_of_stepAt hstep
  have hthere : run.workers[position]? = some post.worker := by
    simp [Run.workers, Post.getElem?_of_drop hdrop]
  have hmem : post ∈ run.posts := List.mem_of_getElem? (Post.getElem?_of_drop hdrop)
  obtain ⟨verb, hverb⟩ : ∃ verb, verbs[position]? = some verb := by
    have hplace : position < run.workers.length := (List.getElem?_eq_some_iff.mp hthere).1
    exact ⟨_, List.getElem?_eq_getElem (h.length ▸ hplace)⟩
  obtain ⟨hnext, hworld⟩ := (h.workers position verb _ hverb hthere).step hpost h.fired
    (h.sound.wellWired.hasLiveInbox post hmem).isReadable position
  refine ⟨⟨h.sound.move hmove, h.fired, h.asks, ?_, ?_⟩, verb, hverb, hworld⟩
  · rw [Run.workers, hworkers, List.length_set]
    exact h.length
  · intro other verb' found hverb' hfound
    rw [Run.workers, hworkers] at hfound
    rw [firstAt_concat]
    rcases of_getElem?_set hfound with ⟨rfl, rfl⟩ | ⟨hother, hsame⟩
    · obtain rfl : verb = verb' := Option.some.inj (hverb.symm.trans hverb')
      rw [if_pos rfl]
      exact hnext
    · rw [if_neg hother, Option.or_none]
      exact h.workers other verb' found hverb' hsame

private theorem course (h : CancelledUnbegun verbs [] run) (hcourse : run.Course records after) :
    CancelledUnbegun verbs records after ∧
      ∀ front record back, records = front ++ record :: back → record.Lawful verbs front := by
  induction hcourse with
  | start => exact ⟨h, fun front record back hsplit => absurd hsplit.symm (by simp)⟩
  | step _ hgoes ih =>
      obtain ⟨hnext, hlawful⟩ := ih.1.step hgoes
      refine ⟨hnext, fun front record back hsplit => ?_⟩
      rcases List.eq_nil_or_concat back with rfl | ⟨more, last, rfl⟩
      · obtain ⟨rfl, hlast⟩ := List.append_inj' hsplit rfl
        obtain rfl := List.singleton_inj.mp hlast
        exact hlawful
      · rw [List.concat_eq_append, ← List.cons_append, ← List.append_assoc] at hsplit
        exact ih.2 front record more (List.append_inj_left' hsplit rfl)

/-- When all workers have ended each of them has begun, and how it has ended was settled
then. -/
theorem ended (h : CancelledUnbegun verbs records run) (hended : ∀ post ∈ run.posts, post.HasEnded)
    {verb : Verb} (hverb : verbs[position]? = some verb) :
    ∃ record, firstAt records position = some record ∧
      run.workers[position]? = some (.gone (verb.cancelledExit record.before)) := by
  have hplace : position < run.workers.length := h.length ▸ (List.getElem?_eq_some_iff.mp hverb).1
  obtain ⟨worker, hworker⟩ : ∃ worker, run.workers[position]? = some worker :=
    ⟨_, List.getElem?_eq_getElem hplace⟩
  obtain ⟨post, hpost, rfl⟩ := List.mem_map.mp (List.mem_of_getElem? hworker)
  obtain ⟨exit, hexit⟩ := hended post hpost
  have hafter := h.workers position verb _ hverb hworker
  rw [hexit] at hafter hworker
  generalize firstAt records position = first at hafter ⊢
  cases hafter with
  | @begun record _ hends =>
      -- What it was to end with is what it has ended with.
      obtain rfl : exit = verb.cancelledExit record.before := by
        generalize verb.cancelledExit record.before = known at hends
        cases hends
        rfl
      exact ⟨record, rfl, hworker⟩

/-- In a world of its own a pipeline changes nothing before its last worker begins, and
nothing after that. -/
theorem alone (h : CancelledUnbegun verbs [] run) (hrow : Row tree verbs) {last : Verb}
    (hlast : verbs.getLast? = some last) (hfollow : run.follow world moves = some (after, later)) :
    ∃ records, run.Course records after ∧
      (if (firstAt records (verbs.length - 1)).isSome then last.StartEffect world later
        else later = world) ∧
      ∀ record ∈ records, record.before = world ∨ last.StartEffect world record.before := by
  refine Run.follow_induction (motive := fun _ after later => ∃ records, run.Course records after ∧
    (if (firstAt records (verbs.length - 1)).isSome then last.StartEffect world later
      else later = world) ∧
    ∀ record ∈ records, record.before = world ∨ last.StartEffect world record.before)
    ⟨[], .start, rfl, nofun⟩ ?_ hfollow
  rintro _ before earlier move after later - ⟨records, hcourse, hworld, hseen⟩ hmove
  have hbefore := (h.course hcourse).1
  rcases Run.move_cases hmove with ⟨position, posts, rfl, -, -⟩ | ⟨-, hgoing, -⟩
  swap
  · simp [hbefore.fired] at hgoing
  have hgoes : before.stepAt position earlier = some (after, later) := hmove
  obtain ⟨-, verb, hverb, hlaw⟩ := hbefore.step hgoes
  refine ⟨_, hcourse.step hgoes, ?_, ?_⟩
  · -- Only the last worker may change the world, and only by its first step.
    rw [firstAt_concat]
    by_cases hplace : position = verbs.length - 1
    · subst hplace
      obtain rfl : last = verb := by
        rw [List.getLast?_eq_getElem?] at hlast
        exact Option.some.inj (hlast.symm.trans hverb)
      simp only at hlaw
      split at hlaw
      · rename_i hbegun
        rw [if_pos hbegun] at hworld
        simpa [hbegun, hlaw] using hworld
      · rename_i hbegun
        rw [if_neg hbegun] at hworld
        simpa [hworld] using hlaw
    · have hsame : later = earlier := by
        simp only at hlaw
        split at hlaw
        · exact hlaw
        · exact hlaw.eq_of_producesOutput (hrow.producesOutput hverb hplace)
      simpa [hplace, hsame] using hworld
  · intro record hrecord
    rcases List.mem_append.mp hrecord with hearlier | hnow
    · exact hseen record hearlier
    · obtain rfl := List.mem_singleton.mp hnow
      split at hworld
      · exact .inr hworld
      · exact .inl hworld

end CancelledUnbegun

namespace Jobs

variable {jobs : Jobs} {run : Run}

end Jobs

end LineShell
