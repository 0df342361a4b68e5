import LineShell.Proofs.Readings
import LineShell.Proofs.Sequential

/-!
What a row of verbs comes to when it runs. At every moment each worker of a line
has handed on a beginning of what the verbs up to it make of the lines of the
source. When no worker can go on, all have ended; and where nobody has
cancelled anything, all of them have ended by themselves and have handed on all
that there is.
-/

namespace LineShell

/-- A pipeline before its first step, with the verbs of an accepted line. -/
structure Begins (world : World) (verbs : List Verb) (run : Run) : Prop where
  row : Row world.files verbs
  posts : run.posts = Post.lined false verbs
  going : run.cancelled = false

theorem CommandLine.begins_of_build {world : World} {tree : FileTree} {line : Text}
    {pipeline : Pipeline}
    (h : build world.directory tree line = (world.files, .ok pipeline)) :
    Begins world pipeline.verbs (Run.start pipeline) := by
  obtain ⟨hrow, hposts⟩ := row_of_build h
  exact ⟨hrow, hposts, rfl⟩

/-- The world after a pipeline whose source reads its lines at the start. -/
def finalWorld (world : World) (verbs : List Verb) : World :=
  match verbs.head?, verbs.getLast? with
  | some source, some last => last.effect world (Verb.passAll verbs (source.reads world))
  | _, _ => world

theorem finalWorld_eq {world : World} {verbs : List Verb} {first last : Verb}
    (hfirst : verbs.head? = some first) (hlast : verbs.getLast? = some last) :
    finalWorld world verbs = last.effect world (Verb.passAll verbs (first.reads world)) := by
  simp [finalWorld, hfirst, hlast]

/-- How a pipeline has ended whose workers have all come to an end of their own. -/
theorem Run.result_of_finished {run : Run}
    (h : ∀ worker ∈ run.workers, worker = .gone .finished) :
    run.result =
      { stages := run.posts.length
        finished := run.posts.length
        cancelled := 0
        lost := 0
        exitRequested := run.exitRequested } := by
  have hexits : run.posts.map (fun post => post.worker.exit?) =
      List.replicate run.posts.length (some .finished) := by
    refine List.eq_replicate_iff.mpr ⟨List.length_map _, ?_⟩
    intro exit hexit
    obtain ⟨post, hpost, rfl⟩ := List.mem_map.mp hexit
    rw [h post.worker (List.mem_map_of_mem hpost)]
    rfl
  simp [result, hexits, List.count_replicate]

namespace Begins

variable {world later : World} {verbs : List Verb} {run after : Run} {moves : List Move}

theorem workers (h : Begins world verbs run) :
    run.workers = verbs.map fun verb => .running (.fresh verb) := by
  rw [Run.workers, h.posts, Post.map_worker_lined]

theorem length (h : Begins world verbs run) : run.posts.length = verbs.length := by
  rw [h.posts, Post.length_lined]

theorem wellWired (h : Begins world verbs run) : Post.WellWired none run.posts :=
  h.posts ▸ h.row.wellWired

theorem running (h : Begins world verbs run) :
    ∀ worker ∈ run.workers, worker.isRunning = true ∧ worker.outcome? = none := by
  intro worker hworker
  rw [h.workers] at hworker
  obtain ⟨verb, -, rfl⟩ := List.mem_map.mp hworker
  exact ⟨rfl, rfl⟩

/-- A pipeline in which no worker can go on has come to its end. -/
theorem ended_of_stuck (h : Begins world verbs run)
    (hfollow : run.follow world moves = some (after, later))
    (hstuck : ∀ position, after.stepAt position later = none) :
    ∀ post ∈ after.posts, post.HasEnded := by
  have hwired := Run.wellWired_of_follow h.wellWired hfollow
  apply hwired.ended_of_stuck
  · intro writer hwriter
    cases hwriter
  · intro position
    exact Option.map_eq_none_iff.mp (hstuck position)

/-- Without a cancellation every worker ends by itself. -/
theorem finished_of_stuck (h : Begins world verbs run)
    (hfollow : run.follow world moves = some (after, later)) (hgoing : after.cancelled = false)
    (hstuck : ∀ position, after.stepAt position later = none) :
    ∀ worker ∈ after.workers, worker = .gone .finished := by
  intro worker hworker
  obtain ⟨post, hpost, rfl⟩ := List.mem_map.mp hworker
  obtain ⟨exit, hexit⟩ := h.ended_of_stuck hfollow hstuck post hpost
  have hnot := Run.outcome?_of_uncancelled h.running hfollow hgoing hworker
  rw [hexit] at hnot ⊢
  cases exit with
  | finished => rfl
  | cancelled => exact absurd rfl hnot

/-- The world is what the last worker has made of it. -/
theorem writes {front : List Verb} {last : Verb} (h : Begins world (front ++ [last]) run)
    (hlast : last.producesOutput = false)
    (hfollow : run.follow world moves = some (after, later)) :
    ∃ worker, after.workers[front.length]? = some worker ∧
      Writes world last worker (run.told front.length world moves) later := by
  refine Run.writes_of_follow h.wellWired (by rw [h.length]; simp) hlast ?_ hfollow
  rw [h.workers]
  simp

/-- No line has come to the workers behind the first. -/
theorem unfed (h : Begins world verbs run) :
    ∀ post ∈ run.posts.tail, post.Unfed run.cancelled := by
  rw [h.posts]
  exact h.row.unfed _

/-- What was expected at the start is kept, with the lines that the first verb reads
in a world that it may meet. -/
theorem kept {front : List Verb} {first last : Verb} (h : Begins world (front ++ [last]) run)
    (hfirst : (front ++ [last]).head? = some first) (hlast : last.producesOutput = false)
    (hfollow : run.follow world moves = some (after, later)) :
    ∃ seen, Met world last seen ∧ Run.Kept (first.reads seen) run world moves after := by
  have hlength : run.posts.length = front.length + 1 := by
    rw [h.length]
    simp
  have hfresh : run.workers[front.length]? = some (.running (.fresh last)) := by
    rw [h.workers]
    simp
  refine Run.kept_of_follow h.wellWired hlength hlast hfresh ?_ h.unfed h.going hfollow
  intro position verb hworker hsource
  rw [h.workers, List.getElem?_map] at hworker
  obtain ⟨other, hother, hsame⟩ := Option.map_eq_some_iff.mp hworker
  obtain rfl : other = verb := by simpa using hsame
  obtain rfl := h.row.eq_zero_of_isSource hother hsource
  rw [← List.head?_eq_getElem?, hfirst] at hother
  exact ⟨rfl, (Option.some.inj hother).symm⟩

/-- The worker at a position of a line hands on a beginning of what the verbs up to
it make of the lines of the source, and the last worker all of it, as long as
nothing has been cancelled. -/
theorem told_of_line {source sink : Verb} {filters : List Verb}
    (h : Begins world (source :: filters ++ [sink]) run)
    (hline : Line world.files source filters sink)
    (hfollow : run.follow world moves = some (after, later)) :
    ∃ seen, Met world sink seen ∧ ∀ position < filters.length + 2,
      Agrees (after.cancelled || decide (position + 1 < filters.length + 2))
        (run.told position world moves ++
          Post.expected after.cancelled (source.reads seen) [] after.posts position)
        (Verb.passAll ((source :: filters ++ [sink]).take (position + 1))
          (source.reads seen)) := by
  have hsink : sink.producesOutput = false := by
    simpa using (Bool.and_eq_true_iff.mp hline.writes).2
  obtain ⟨seen, hmet, hkept⟩ := h.kept rfl hsink hfollow
  refine ⟨seen, hmet, ?_⟩
  intro position hposition
  have hcount : (source :: (filters ++ [sink])).length = filters.length + 2 := by simp
  have htold := hkept position
  rw [h.posts, Post.length_lined, List.cons_append, hcount,
    Post.expected_line hline.reads hline.acceptsInput _ (hcount ▸ hposition)] at htold
  exact htold

/-- A verb that stands alone is given no lines. -/
theorem told_of_solitary {verb : Verb} (h : Begins world [verb] run)
    (halone : verb.isSolitary = true)
    (hfollow : run.follow world moves = some (after, later)) :
    run.told 0 world moves = [] := by
  obtain ⟨haccepts, hproduces⟩ := (Verb.isSolitary_iff verb).mp halone
  have hrow : Begins world ([] ++ [verb]) run := h
  obtain ⟨seen, -, hkept⟩ := hrow.kept rfl hproduces hfollow
  have hnothing : Post.expected false (verb.reads seen) [] run.posts 0 = [] := by
    simp [h.posts, Post.lined, Post.expected, Worker.yields, haccepts, hproduces]
  have htold := (hkept 0).1
  rw [hnothing] at htold
  exact (List.append_eq_nil_iff.mp (List.prefix_nil.mp htold)).1

/-- When all workers of a line have ended by themselves, its last one has been given
all that the verbs make of the lines of the source. -/
theorem told_of_finished {source sink : Verb} {filters : List Verb}
    (h : Begins world (source :: filters ++ [sink]) run)
    (hline : Line world.files source filters sink)
    (hquiet : ¬ Races world (source :: filters ++ [sink]))
    (hfollow : run.follow world moves = some (after, later)) (hgoing : after.cancelled = false)
    (hfinished : ∀ worker ∈ after.workers, worker = .gone .finished) :
    run.told (filters.length + 1) world moves =
      Verb.passAll (source :: filters ++ [sink]) (source.reads world) := by
  obtain ⟨seen, hmet, htold⟩ := h.told_of_line hline hfollow
  have hended : ∀ post ∈ after.posts, post.HasEnded := by
    intro post hpost
    exact ⟨.finished, hfinished post.worker (List.mem_map_of_mem hpost)⟩
  have hlast := (htold (filters.length + 1) (Nat.lt_succ_self _)).2 (by simp [hgoing])
  rwa [Post.expected_of_ended hended, List.append_nil, hline.reads_of_quiet hmet hquiet,
    List.take_of_length_le (by simp)] at hlast

/-- The last one has written all of it. -/
theorem later_of_finished (h : Begins world verbs run) (hquiet : ¬ Races world verbs)
    (hfollow : run.follow world moves = some (after, later)) (hgoing : after.cancelled = false)
    (hfinished : ∀ worker ∈ after.workers, worker = .gone .finished) :
    later = finalWorld world verbs := by
  cases h.row with
  | @solitary verb halone =>
      have hsolitary : Begins world ([] ++ [verb]) run := h
      obtain ⟨worker, hworker, hwrites⟩ :=
        hsolitary.writes ((Verb.isSolitary_iff verb).mp halone).2 hfollow
      obtain rfl := hfinished worker (List.mem_of_getElem? hworker)
      rw [hwrites.world_of_finished rfl, finalWorld_eq rfl List.getLast?_singleton]
      cases verb with
      | cd change => rw [Verb.effect_cd, Verb.effect_cd]
      | exit => rw [Verb.effect_exit, Verb.effect_exit]
      | _ => cases halone
  | @line source filters sink hline =>
      have hsink : sink.producesOutput = false := by
        simpa using (Bool.and_eq_true_iff.mp hline.writes).2
      obtain ⟨worker, hworker, hwrites⟩ := h.writes hsink hfollow
      obtain rfl := hfinished worker (List.mem_of_getElem? hworker)
      rw [hwrites.world_of_finished rfl,
        show (source :: filters).length = filters.length + 1 from List.length_cons,
        h.told_of_finished hline hquiet hfollow hgoing hfinished,
        finalWorld_eq rfl List.getLast?_concat]

/-- Every order of steps in which the workers come to their end leads to the same
end. -/
theorem outcome (h : Begins world verbs run) (hquiet : ¬ Races world verbs) {order : List Nat}
    (hfollow : run.follow world (order.map .step) = some (after, later))
    (hstuck : ∀ position, after.stepAt position later = none) :
    (∀ worker ∈ after.workers, worker = .gone .finished) ∧
      after.result =
        { stages := verbs.length
          finished := verbs.length
          cancelled := 0
          lost := 0
          exitRequested := run.exitRequested } ∧
      later = finalWorld world verbs := by
  have hgoing : after.cancelled = false := (Run.uncancelled_of_steps hfollow).trans h.going
  have hfinished := h.finished_of_stuck hfollow hgoing hstuck
  refine ⟨hfinished, ?_, h.later_of_finished hquiet hfollow hgoing hfinished⟩
  rw [Run.result_of_finished hfinished, Run.exitRequested_of_follow hfollow,
    Run.length_of_follow hfollow, h.length]

/-- So does the order in which each worker has one turn. -/
theorem settle (h : Begins world verbs run) (hquiet : ¬ Races world verbs) :
    (run.settle world).1.result =
        { stages := verbs.length
          finished := verbs.length
          cancelled := 0
          lost := 0
          exitRequested := run.exitRequested } ∧
      (run.settle world).2 = finalWorld world verbs := by
  obtain ⟨order, hfollow⟩ := run.follow_settle world
  exact (h.outcome hquiet hfollow (run.stepAt_settle world)).2

end Begins

/-! A small file tree, and a line that reads from it and writes to it. -/

namespace Sample

def tree : FileTree :=
  FileTree.empty.insert ["f".toList] (.file (Text.encode "b\na\nb\n".toList))

/-- A tree in which the destination is there, and may be written to but not removed. -/
def guarded : FileTree :=
  { tree.insert ["g".toList] (.file (Text.encode "c\n".toList)) with
    access := fun place => if place = ["g".toList] then .write else .full }

def line : Text := "cat f | uniq > g".toList

/-- The pipeline that the line is made into. -/
def pipeline : Pipeline :=
  { command := line
    stages := Stage.rowFrom false
      [("cat f".toList, .cat "/f".toList), ("uniq".toList, .uniq),
        ("> g".toList, .redirect "/g".toList)] }

/-- The world when the line has been made into its pipeline in the root directory. -/
def world : World :=
  { files := (CommandLine.build "/".toList tree line).1, directory := "/".toList }

theorem build_line :
    CommandLine.build world.directory tree line = (world.files, .ok pipeline) := by
  have hstages : (CommandLine.build "/".toList tree line).2 = .ok pipeline := by
    decide +kernel
  simp only [world, ← hstages]

/-- Nothing is listed, so nothing races. -/
theorem not_races : ¬ Races world pipeline.verbs := by
  rintro ⟨path, place, hlists, -⟩
  cases hlists

end Sample

end LineShell
