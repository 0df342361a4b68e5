import LineShell.Proofs.Deliveries
import LineShell.Proofs.PassedFrames

/-!
What a cancellation can do to a pipeline, at whatever moment it comes. Every
worker still ends, and one that ends as cancelled sends no end mark. What has
been handed on is cut short and never wrong: each worker has handed on a
beginning of what it would have handed on in the end, so a count of the lines
or the last of them are only there when all lines have been seen.
-/

namespace LineShell

/-- The lines of a source in a world, or in the world where the redirect has made its
file. -/
def ReadBy (world : World) (source sink : Verb) (lines : List Text) : Prop :=
  SourceLines world source lines ∨ ∃ path place, sink = .redirect path ∧
    world.files.locate true path = .vacant place ∧ world.files.access place = .full ∧
    SourceLines { world with files := world.files.insert place (.file []) } source lines

/-- What a sink may have made of a world that was to be given these lines: they are
on the console or at the end of the redirect's file, up to some line or up to some
byte. -/
inductive Begun (world : World) : Verb → List Text → World → Prop
  | printed {lines shown : List Text} (cut : shown <+: lines) :
      Begun world .print lines { world with console := world.console ++ shown }
  | stored {lines : List Text} {path : Text} {place : Place} {before bytes : Bytes}
      (receives : world.files.Receives path place before)
      (cut : bytes <+: Text.encode (Text.unlines lines)) :
      Begun world (.redirect path) lines
        { world with files := world.files.insert place (.file (before ++ bytes)) }
  | untouched {lines : List Text} {path : Text} : Begun world (.redirect path) lines world

/-- What may have come of a pipeline whose workers have handed on these lines. -/
inductive Truncated (world : World) (told : Nat → List Text) : List Verb → World → Prop
  | solitary {verb : Verb} {later : World} (alone : verb.isSolitary = true)
      (silent : told 0 = []) (done : later = world ∨ Delivered world [verb] [] later) :
      Truncated world told [verb] later
  | line {source sink : Verb} {filters : List Verb} {lines : List Text} {later : World}
      (reads : ReadBy world source sink lines)
      (passes : ∀ filter ∈ filters, filter.isFilter = true)
      (cut : ∀ position ≤ filters.length,
        told position <+: Verb.passAll (filters.take position) lines)
      (begun : Begun world sink (Verb.passAll filters lines) later) :
      Truncated world told (source :: filters ++ [sink]) later

private theorem prefix_encode {first second : List Text} (h : first <+: second) :
    Text.encode (Text.unlines first) <+: Text.encode (Text.unlines second) :=
  (h.flatMap _).flatMap _

variable {world later : World} {verbs : List Verb} {run after : Run} {moves : List Move}

/-- What a source reads in the course of a run. -/
theorem Line.readBy {seen : World} {source sink : Verb} {filters : List Verb}
    (h : Line world.files source filters sink) (hmet : Met world sink seen) :
    ReadBy world source sink (source.reads seen) := by
  rcases h.met_cases hmet with rfl | ⟨path, place, rfl, hvacant, hfull, rfl⟩
  · exact .inl (sourceLines_reads h.reads h.there)
  · obtain ⟨hroot, hnode⟩ := FileTree.node?_of_vacant hvacant
    cases hsource : source with
    | cat path =>
        left
        have hlists : source = .ls → world.files.locate true world.directory ≠
            .found place.dropLast .directory := by
          intro hls
          rw [hsource] at hls
          cases hls
        have hread := reads_insert hroot hnode h.reads h.there hlists []
        rw [← hsource, hread]
        exact sourceLines_reads h.reads h.there
    | ls =>
        right
        exact ⟨_, place, rfl, hvacant, hfull, sourceLines_reads rfl (fun _ => nofun)⟩
    | pwd => exact .inl .pwd
    | _ => rw [hsource] at h; cases h.reads

/-- What a last worker has made of the world, when it has been given a beginning of
its lines. -/
theorem Line.begun {source sink : Verb} {filters : List Verb} {worker : Worker}
    {told lines : List Text} (h : Line world.files source filters sink)
    (hwrites : Writes world sink worker told later) (htold : told <+: lines) :
    Begun world sink lines later := by
  have hsink := h.writes
  cases sink with
  | print =>
      rw [hwrites.world_of_print]
      exact .printed htold
  | redirect path =>
      rcases hwrites.world_of_receives (h.cleared path rfl) with
        rfl | ⟨place, before, bytes, hreceives, rfl, hbytes⟩
      · exact .untouched
      · exact .stored hreceives (hbytes.trans (prefix_encode htold))
  | _ => cases hsink

/-- At every moment of every run only a beginning has been handed on. -/
theorem Begins.truncated (h : Begins world verbs run)
    (hfollow : run.follow world moves = some (after, later)) :
    Truncated world (fun position => run.told position world moves) verbs later := by
  cases h.row with
  | @solitary verb halone =>
      have hrow : Begins world ([] ++ [verb]) run := h
      obtain ⟨worker, -, hwrites⟩ := hrow.writes ((Verb.isSolitary_iff verb).mp halone).2 hfollow
      refine .solitary halone (h.told_of_solitary halone hfollow) ?_
      rcases hwrites.world_of_solitary halone with hworld | hworld
      · exact .inl hworld
      · rw [hworld]
        exact .inr (.of_isSolitary halone world [])
  | @line source filters sink hline =>
      have hsink : sink.producesOutput = false := by
        simpa using (Bool.and_eq_true_iff.mp hline.writes).2
      obtain ⟨worker, -, hwrites⟩ := h.writes hsink hfollow
      obtain ⟨seen, hmet, htold⟩ := h.told_of_line hline hfollow
      have hcut : ∀ position < filters.length + 2, run.told position world moves <+:
          Verb.passAll ((source :: filters ++ [sink]).take (position + 1)) (source.reads seen) :=
        fun position hposition => (List.prefix_append _ _).trans (htold position hposition).1
      refine .line (hline.readBy hmet) hline.passes ?_ ?_
      · intro position hposition
        have hmore := hcut position (by omega)
        rw [List.cons_append, List.take_succ_cons, List.take_append_of_le_length hposition,
          Verb.passAll, List.foldl_cons, Verb.passes_of_isSource hline.reads] at hmore
        exact hmore
      · have hall := hcut (filters.length + 1) (Nat.lt_succ_self _)
        rw [List.take_of_length_le (by simp), hline.passAll] at hall
        exact hline.begun hwrites hall

/-- When all workers have ended, each has finished or has been cancelled. -/
theorem Run.result_of_ended {run : Run} (h : ∀ post ∈ run.posts, post.HasEnded) :
    run.result.finished + run.result.cancelled = run.result.stages ∧ run.result.lost = 0 := by
  suffices hall : ∀ posts : List Post, (∀ post ∈ posts, post.HasEnded) →
      (posts.map fun post => post.worker.exit?).count (some .finished) +
          (posts.map fun post => post.worker.exit?).count (some .cancelled) =
        (posts.map fun post => post.worker.exit?).length ∧
      (posts.map fun post => post.worker.exit?).count none = 0 from hall run.posts h
  intro posts hended
  induction posts with
  | nil => exact ⟨rfl, rfl⟩
  | cons post rest ih =>
      obtain ⟨hsum, hnone⟩ := ih fun other hother => hended other (List.mem_cons_of_mem _ hother)
      obtain ⟨exit, hexit⟩ := hended post List.mem_cons_self
      have hfirst : post.worker.exit? = some exit := by rw [hexit]; rfl
      cases exit with
      | finished =>
          simp only [List.map_cons, hfirst, List.length_cons, List.count_cons_self]
          rw [List.count_cons_of_ne (by decide), List.count_cons_of_ne (by decide)]
          omega
      | cancelled =>
          simp only [List.map_cons, hfirst, List.length_cons, List.count_cons_self]
          rw [List.count_cons_of_ne (by decide), List.count_cons_of_ne (by decide)]
          omega

/-- However the workers of an accepted line take their steps, and whenever the token
fires: no run goes on forever; from then on every worker that has not ended can
go on; at the end each of them has finished or has been cancelled; what a worker hands on
is what enters the queue of the next one, and one that has been cancelled has put no end
mark there; and at every moment what has been handed on, and what has become of the world,
is only a beginning. -/
theorem Run.cancellation_truncates {world : World} {tree : FileTree} {line : Text}
    {pipeline : Pipeline}
    (hbuild : CommandLine.build world.directory tree line = (world.files, .ok pipeline)) :
    (∀ order : Nat → Move, ∃ count,
      (start pipeline).follow world ((List.range count).map order) = none) ∧
    ∀ (moves : List Move) (after : Run) (later : World),
      (start pipeline).follow world moves = some (after, later) →
        (after.cancelled = true → ∀ position post, after.posts[position]? = some post →
          ¬ post.HasEnded → after.stepAt position later ≠ none) ∧
        ((∀ position, after.stepAt position later = none) →
          after.result.stages = pipeline.stages.length ∧
          after.result.finished + after.result.cancelled = after.result.stages ∧
          after.result.lost = 0) ∧
        (∀ position channel, Post.inboxAt after.posts (position + 1) = some channel →
          Passed ((start pipeline).frames position world moves)
            ((start pipeline).taken (position + 1) world moves) channel) ∧
        (∀ position, after.workers[position]? = some (.gone .cancelled) →
          .finish ∉ (start pipeline).frames position world moves) ∧
        Truncated world (fun position => (start pipeline).told position world moves)
          pipeline.verbs later := by
  have hbegins := CommandLine.begins_of_build hbuild
  constructor
  · intro order
    apply follow_eq_none
  intro moves after later hfollow
  refine ⟨?_, ?_, fun position channel => hbegins.passed hfollow, ?_, ?_⟩
  · intro hcancelled position post hpost hgoing hstep
    rcases Post.rest_of_stepAt_eq_none hpost (Option.map_eq_none_iff.mp hstep) with
      hended | ⟨huncancelled, -⟩
    · exact hgoing hended
    · rw [hcancelled] at huncancelled
      cases huncancelled
  · intro hstuck
    refine ⟨?_, result_of_ended (hbegins.ended_of_stuck hfollow hstuck)⟩
    have hcount : pipeline.verbs.length = pipeline.stages.length := List.length_map _
    rw [result, List.length_map, length_of_follow hfollow, hbegins.length, hcount]
  · intro position hworker hmark
    rw [frames_of_follow (fun worker h => (hbegins.running worker h).1) hfollow hworker] at hmark
    simp [Worker.mark] at hmark
  · exact hbegins.truncated hfollow

namespace Sample

def countingLine : Text := "cat f | wc > g".toList

def countingPipeline : Pipeline :=
  { command := countingLine
    stages := Stage.rowFrom false
      [("cat f".toList, .cat "/f".toList), ("wc".toList, .wc),
        ("> g".toList, .redirect "/g".toList)] }

def countingWorld : World :=
  { files := (CommandLine.build "/".toList tree countingLine).1, directory := "/".toList }

private theorem build_countingLine :
    CommandLine.build countingWorld.directory tree countingLine =
      (countingWorld.files, .ok countingPipeline) := by
  have hstages : (CommandLine.build "/".toList tree countingLine).2 = .ok countingPipeline := by
    decide +kernel
  simp only [countingWorld, ← hstages]

/-- The destination has been made, two lines have been sent, and one of them has been
counted, when the token fires. -/
def cutMoves : List Move :=
  [.step 2] ++ List.replicate 3 (.step 0) ++ List.replicate 3 (.step 1) ++
    List.replicate 2 (.step 0) ++ [.cancel] ++ List.replicate 3 (.step 1) ++
    List.replicate 3 (.step 0) ++ List.replicate 3 (.step 2)

end Sample

/-- Of two lines that were sent no total is written. -/
theorem Run.cancellation_truncates_sample :
    CommandLine.build Sample.countingWorld.directory Sample.tree Sample.countingLine =
        (Sample.countingWorld.files, .ok Sample.countingPipeline) ∧
      (∃ count, (start Sample.countingPipeline).follow Sample.countingWorld
        ((List.range count).map fun turn => if turn = 1 then .cancel else .step 0) = none) ∧
      ∃ after later,
        (start Sample.countingPipeline).follow Sample.countingWorld Sample.cutMoves =
            some (after, later) ∧
          (start Sample.countingPipeline).told 0 Sample.countingWorld Sample.cutMoves =
            ["b".toList, "a".toList] ∧
          (start Sample.countingPipeline).told 1 Sample.countingWorld Sample.cutMoves = [] ∧
          .finish ∉ (start Sample.countingPipeline).frames 0 Sample.countingWorld Sample.cutMoves ∧
          later.files.read? "/g".toList = some [] ∧
          Truncated Sample.countingWorld
            (fun position =>
              (start Sample.countingPipeline).told position Sample.countingWorld Sample.cutMoves)
            Sample.countingPipeline.verbs later := by
  obtain ⟨hends, hall⟩ := cancellation_truncates Sample.build_countingLine
  have hvalues : ((start Sample.countingPipeline).follow Sample.countingWorld
      Sample.cutMoves).map (fun state =>
        (state.1.workers[0]?, state.2.files.read? "/g".toList)) =
      some (some (.gone .cancelled), some []) := by
    decide +kernel
  obtain ⟨⟨after, later⟩, hfollow, hafter⟩ := Option.map_eq_some_iff.mp hvalues
  obtain ⟨hworker, hread⟩ := Prod.mk.inj hafter
  obtain ⟨-, -, -, hunmarked, htruncated⟩ := hall _ _ _ hfollow
  exact ⟨Sample.build_countingLine, hends _, after, later, hfollow, by decide +kernel,
    by decide +kernel, hunmarked 0 hworker, hread, htruncated⟩

end LineShell
