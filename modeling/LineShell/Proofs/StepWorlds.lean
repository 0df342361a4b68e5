import LineShell.Proofs.Runs

/-!
What a step has to do with the world. Only a worker that begins looks at it: it
reads a source, or opens its file. All that comes later was settled then, and what
the other steps do to the world they do to any world alike. So a step that can be
taken in one world can be taken in every other in which the worker would begin in
the same way.
-/

namespace LineShell

/-- What a step may do to the world: print some lines, and give a file some content. -/
structure Effect where
  printed : List Text := []
  filled : Option (Place × Bytes) := none

def Effect.apply (effect : Effect) (world : World) : World :=
  { world with
    files :=
      match effect.filled with
      | some (place, content) => world.files.insert place (.file content)
      | none => world.files
    console := world.console ++ effect.printed }

private theorem Effect.apply_none (world : World) : ({} : Effect).apply world = world := by
  simp [apply]

namespace Worker

/-- What the next step makes of the world. -/
def alter : Worker → World → World
  | .running (.fresh verb), world => (Body.start world verb).2
  | .running (.writing line reader), world => (Body.writeLine world line reader).2
  | .running (.storing place held), world => world.append place held
  | _, world => world

/-- A worker that has yet to begin begins in the same way in two worlds. -/
def BeginsAlike (worker : Worker) (world other : World) : Prop :=
  ∀ verb, worker = .running (.fresh verb) → (Body.start other verb).1 = (Body.start world verb).1

/-- The file that a worker writes to. -/
def opened? : Worker → Option Place
  | .running (.reading (.file place _)) | .running (.receiving (.file place _)) => some place
  | .running (.waiting (.file place _)) | .running (.writing _ (.file place _)) => some place
  | .running (.storing place _) => some place
  | _ => none

variable {worker next : Worker} {wiring after : Wiring} {world later other : World} {place : Place}

private theorem writeLine_elsewhere (world other : World) (line : Text) (reader : Reader) :
    (Body.writeLine other line reader).1 = (Body.writeLine world line reader).1 := by
  cases reader <;> rfl

theorem alter_of_step (h : worker.step wiring world = some (next, after, later)) :
    later = worker.alter world := by
  cases goes_of_step h with
  | work hbody => cases hbody <;> rfl
  | @mark ending => cases ending <;> rfl
  | _ => rfl

/-- The same step in another world. -/
theorem step_elsewhere (h : worker.step wiring world = some (next, after, later))
    (halike : worker.BeginsAlike world other) :
    worker.step wiring other = some (next, after, worker.alter other) := by
  refine step_eq_some_iff.mpr ?_
  cases goes_of_step h with
  | work hbody =>
      cases hbody with
      | begin verb => exact halike verb rfl ▸ .work (.begin verb)
      | write line reader =>
          exact writeLine_elsewhere world other line reader ▸ .work (.write line reader)
      | shut reader hclosed => exact .work (.shut reader hclosed)
      | stopReading reader hopened hfired => exact .work (.stopReading reader hopened hfired)
      | look reader hopened hgoing => exact .work (.look reader hopened hgoing)
      | take reader hreceived => exact .work (.take reader hreceived)
      | finish reader hreceived => exact .work (.finish reader hreceived)
      | wait reader hreceived => exact .work (.wait reader hreceived)
      | stopWaiting reader hfired => exact .work (.stopWaiting reader hfired)
      | wake reader hgoing hready => exact .work (.wake reader hgoing hready)
      | store place held => exact .work (.store place held)
      | stopEmitting line next hfired => exact .work (.stopEmitting line next hfired)
      | emit line next hgoing => exact .work (.emit line next hgoing)
      | send line next htransmitted => exact .work (.send line next htransmitted)
      | refuse line next htransmitted => exact .work (.refuse line next htransmitted)
      | close => exact .work .close
  | giveUp => exact .giveUp
  | @mark ending hown =>
      cases ending with
      | cancelled => cases hown
      | completed => exact .mark rfl
      | downstreamClosed => exact .mark rfl
  | leave exit => exact .leave exit

private theorem opened?_flushing (lines : List Text) :
    (running (Body.flushing lines)).opened? = none := by
  cases lines <;> rfl

private theorem opened?_readOn (filter : Filter) :
    (running (Body.readOn filter)).opened? = none := by
  unfold Body.readOn
  split <;> rfl

private theorem opened?_resume (next : Continuation) :
    (running (Body.resume next)).opened? = none := by
  cases next with
  | read filter => exact opened?_readOn filter
  | flush lines => exact opened?_flushing lines

/-- A body that begins opens a file if it is a redirect. -/
theorem opened?_start {verb : Verb} (h : (running (Body.start world verb).1).opened? = some place) :
    ∃ path files, verb = .redirect path ∧ world.files.openFile? path = some (files, place) := by
  cases verb with
  | redirect path =>
      simp only [Body.start] at h
      split at h
      · rename_i files target hfile
        obtain rfl : target = place := Option.some.inj h
        exact ⟨path, files, rfl, hfile⟩
      · cases h
  | cat path | ls =>
      simp only [Body.start, opened?_flushing] at h
      cases h
  | grep query | uniq | wc | head | tail =>
      simp only [Body.start, opened?_readOn] at h
      cases h
  | pwd | cd change | exit | print => cases h

/-- One that takes a line, or comes to the end of its lines, keeps its file. -/
theorem opened?_handle {line : Text} {reader : Reader}
    (h : (running (Body.handle line reader)).opened? = some place) :
    (running (.receiving reader)).opened? = some place := by
  cases reader with
  | filter filter =>
      simp only [Body.handle] at h
      split at h
      · cases h
      · rw [opened?_readOn] at h
        cases h
  | file target held => exact h
  | console | nowhere => cases h

private theorem opened?_conclude {reader : Reader}
    (h : (running (Body.conclude reader)).opened? = some place) :
    (running (.reading reader)).opened? = some place := by
  cases reader with
  | filter filter =>
      simp only [Body.conclude] at h
      split at h
      · cases h
      · rw [opened?_flushing] at h
        cases h
  | file target held => exact h
  | console | nowhere => cases h

/-- A worker writes to a file that it has opened when it began. -/
theorem opened?_of_step (h : worker.step wiring world = some (next, after, later))
    (hopened : next.opened? = some place) :
    worker.opened? = some place ∨ ∃ path files,
      worker = .running (.fresh (.redirect path)) ∧
        world.files.openFile? path = some (files, place) := by
  cases goes_of_step h with
  | work hbody =>
      cases hbody with
      | begin verb =>
          obtain ⟨path, files, rfl, hfile⟩ := opened?_start hopened
          exact .inr ⟨path, files, rfl, hfile⟩
      | take reader _ => exact .inl (opened?_handle hopened)
      | shut reader _ => exact .inl (opened?_conclude hopened)
      | finish reader _ =>
          have hbefore := opened?_conclude hopened
          left
          cases reader <;> exact hbefore
      | write line reader | look reader | wait reader | wake reader =>
          left
          cases reader <;> exact hopened
      | send line next _ =>
          rw [opened?_resume] at hopened
          cases hopened
      | _ => cases hopened
  | _ => cases hopened

/-- The next step of a worker does the same to two worlds, and gives no file a new
content that is not among some places. -/
def ActsAlike (allowed : Place → Prop) (worker : Worker) (world other : World) : Prop :=
  ∃ effect : Effect, worker.alter world = effect.apply world ∧
    worker.alter other = effect.apply other ∧
    ∀ target content, effect.filled = some (target, content) → allowed target

theorem actsAlike_of_idle {allowed : Place → Prop} (h : worker.alter world = world)
    (hother : worker.alter other = other) : worker.ActsAlike allowed world other :=
  ⟨{}, by rw [h, Effect.apply_none], by rw [hother, Effect.apply_none], nofun⟩

/-- What is written to a file is the same where the same is there. -/
theorem actsAlike_of_append {allowed : Place → Prop} {bytes : Bytes}
    (halter : ∀ world, worker.alter world = world.append place bytes)
    (hsame : other.files.node? place = world.files.node? place)
    (hallowed : ∀ before, world.files.node? place = some (.file before) → allowed place) :
    worker.ActsAlike allowed world other := by
  by_cases hfile : ∃ before, world.files.node? place = some (.file before)
  · obtain ⟨before, hfile⟩ := hfile
    refine ⟨{ filled := some (place, before ++ bytes) }, ?_, ?_, ?_⟩
    · simp [halter, World.append, FileTree.append, hfile, Effect.apply]
    · simp [halter, World.append, FileTree.append, hsame, hfile, Effect.apply]
    · intro target content hfilled
      obtain rfl : place = target := congrArg Prod.fst (Option.some.inj hfilled)
      exact hallowed before hfile
  · have hvain (some : World) (hnode : some.files.node? place = world.files.node? place) :
        some.append place bytes = some := by
      simp only [World.append, FileTree.append, hnode]
      split
      · rename_i before hbefore
        exact absurd ⟨before, hbefore⟩ hfile
      · rfl
    exact actsAlike_of_idle ((halter world).trans (hvain world rfl))
      ((halter other).trans (hvain other hsame))

/-- A worker that has begun looks at nothing but its own file. -/
theorem actsAlike_of_begun {allowed : Place → Prop}
    (hbegun : ∀ verb, worker ≠ .running (.fresh verb))
    (hfile : ∀ place, worker.opened? = some place →
      other.files.node? place = world.files.node? place ∧
        ∀ before, world.files.node? place = some (.file before) → allowed place) :
    worker.ActsAlike allowed world other := by
  cases worker with
  | running body =>
      cases body with
      | fresh verb => exact absurd rfl (hbegun verb)
      | writing line reader =>
          cases reader with
          | console => exact ⟨{ printed := [line] }, rfl, rfl, nofun⟩
          | file place held =>
              obtain ⟨hsame, hallowed⟩ := hfile place rfl
              exact actsAlike_of_append (fun _ => rfl) hsame hallowed
          | _ => exact actsAlike_of_idle rfl rfl
      | storing place held =>
          obtain ⟨hsame, hallowed⟩ := hfile place rfl
          exact actsAlike_of_append (fun _ => rfl) hsame hallowed
      | _ => exact actsAlike_of_idle rfl rfl
  | _ => exact actsAlike_of_idle rfl rfl

end Worker

/-- A step of a pipeline is one of a worker, which does to the world what that worker
does, and which can be taken in other worlds too. -/
theorem Post.stepAt_elsewhere {cancelled : Bool} {position : Nat} {posts after : List Post}
    {world later : World} (h : stepAt cancelled position posts world = some (after, later)) :
    ∃ worker next, (posts.map Post.worker)[position]? = some worker ∧
      after.map Post.worker = (posts.map Post.worker).set position next ∧
      (∃ wiring rewired, worker.step wiring world = some (next, rewired, later)) ∧
      ∀ other, worker.BeginsAlike world other →
        stepAt cancelled position posts other = some (after, worker.alter other) := by
  induction posts generalizing position after with
  | nil => simp [stepAt] at h
  | cons post rest ih =>
      cases position with
      | zero =>
          obtain ⟨⟨next, wiring, world'⟩, hstep, heq⟩ := Option.map_eq_some_iff.mp h
          simp only [Prod.mk.injEq] at heq
          obtain ⟨rfl, rfl⟩ := heq
          refine ⟨post.worker, next, rfl, by cases rest <;> rfl, ⟨_, _, hstep⟩, ?_⟩
          intro other halike
          simp [stepAt, Worker.step_elsewhere hstep halike]
      | succ position =>
          obtain ⟨more, hmore, rfl⟩ := stepAt_succ h
          obtain ⟨worker, next, hworker, hworkers, hstep, helsewhere⟩ := ih hmore
          refine ⟨worker, next, hworker, by simp [hworkers], hstep, ?_⟩
          intro other halike
          simp [stepAt, helsewhere other halike]

/-- Whether a step can be taken at all does not depend on the world. -/
theorem Post.stepAt_eq_none_iff {cancelled : Bool} {position : Nat} {posts : List Post}
    (world other : World) :
    stepAt cancelled position posts world = none ↔
      stepAt cancelled position posts other = none := by
  induction posts generalizing position with
  | nil => simp [stepAt]
  | cons post rest ih =>
      cases position with
      | zero => simp only [stepAt, Option.map_eq_none_iff, Worker.step_eq_none_iff]
      | succ position => simpa only [stepAt, Option.map_eq_none_iff] using ih

theorem Run.stepAt_eq_none_iff {run : Run} {position : Nat} (world other : World) :
    run.stepAt position world = none ↔ run.stepAt position other = none := by
  simpa only [stepAt, Option.map_eq_none_iff] using Post.stepAt_eq_none_iff world other

theorem Run.stepAt_elsewhere {run after : Run} {position : Nat} {world later : World}
    (h : run.stepAt position world = some (after, later)) :
    ∃ worker next, run.workers[position]? = some worker ∧
      after.workers = run.workers.set position next ∧
      (∃ wiring rewired, worker.step wiring world = some (next, rewired, later)) ∧
      ∀ other, worker.BeginsAlike world other →
        run.stepAt position other = some (after, worker.alter other) := by
  obtain ⟨⟨posts, world'⟩, hstep, heq⟩ := Option.map_eq_some_iff.mp h
  simp only [Prod.mk.injEq] at heq
  obtain ⟨rfl, rfl⟩ := heq
  obtain ⟨worker, next, hworker, hworkers, hone, helsewhere⟩ := Post.stepAt_elsewhere hstep
  refine ⟨worker, next, hworker, hworkers, hone, fun other halike => ?_⟩
  simp [stepAt, helsewhere other halike]

end LineShell
