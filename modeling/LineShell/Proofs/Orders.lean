import LineShell.Proofs.PassedFrames

/-!
A pipeline that nobody cancels always comes to its end, and to the same one,
whatever the order in which its workers take their steps. One case is set
apart: where a listing and a new file in the listed directory race, the order
decides whether the file is listed.
-/

namespace LineShell

/-- The workers of an accepted line cannot go on forever, and as long as one of
them has not ended, one can go on; a worker that cannot has ended, or its queue
is empty and its sender is there. What a worker hands on is what enters the queue of the
next one. At the end all of them have finished, each that is followed by another has sent
some lines and one end mark behind them, and how the pipeline has ended and what the world
is then does not depend on the order of the steps. -/
theorem Run.orders_agree {world : World} {tree : FileTree} {line : Text} {pipeline : Pipeline}
    (hbuild : CommandLine.build world.directory tree line = (world.files, .ok pipeline))
    (hquiet : ¬ Races world pipeline.verbs) :
    (∀ order : Nat → Nat, ∃ count, (start pipeline).follow world
      ((List.range count).map fun turn => .step (order turn)) = none) ∧
    ∀ (order : List Nat) (after : Run) (later : World),
      (start pipeline).follow world (order.map .step) = some (after, later) →
        (∀ position post, after.posts[position]? = some post →
          after.stepAt position later = none →
            post.HasEnded ∨ ∃ channel, post.inbox = some channel ∧ channel.queue = [] ∧
              channel.hasSender = true) ∧
        ((∃ post ∈ after.posts, ¬ post.HasEnded) →
          ∃ position, after.stepAt position later ≠ none) ∧
        (∀ position channel, Post.inboxAt after.posts (position + 1) = some channel →
          Passed ((start pipeline).frames position world (order.map .step))
            ((start pipeline).taken (position + 1) world (order.map .step)) channel) ∧
        ((∀ position, after.stepAt position later = none) →
          (∀ worker ∈ after.workers, worker = .gone .finished) ∧
          (∀ position, position + 1 < pipeline.stages.length → ∃ lines : List Text,
            (start pipeline).frames position world (order.map .step) =
              lines.map .line ++ [.finish]) ∧
          after.result = ((start pipeline).settle world).1.result ∧
          later = ((start pipeline).settle world).2) := by
  have hbegins := CommandLine.begins_of_build hbuild
  constructor
  · intro order
    apply follow_eq_none
  intro order after later hfollow
  refine ⟨?_, ?_, fun position channel => hbegins.passed hfollow, ?_⟩
  · intro position post hpost hstep
    rcases Post.rest_of_stepAt_eq_none hpost (Option.map_eq_none_iff.mp hstep) with
      hended | ⟨-, hwaits⟩
    · exact .inl hended
    · exact .inr hwaits
  · rintro ⟨post, hpost, hgoing⟩
    by_contra hnone
    apply hgoing
    apply hbegins.ended_of_stuck hfollow ?_ post hpost
    intro position
    by_contra hstep
    exact hnone ⟨position, hstep⟩
  · intro hstuck
    obtain ⟨hfinished, hresult, hworld⟩ := hbegins.outcome hquiet hfollow hstuck
    obtain ⟨hsettled, hsettledWorld⟩ := hbegins.settle hquiet
    refine ⟨hfinished, ?_, hresult.trans hsettled.symm, hworld.trans hsettledWorld.symm⟩
    intro position hposition
    have hbound : position < after.workers.length := by
      have hcount : (start pipeline).posts.length = pipeline.stages.length := List.length_map _
      rw [workers, List.length_map, length_of_follow hfollow, hcount]
      omega
    have hframes := frames_of_follow (fun worker h => (hbegins.running worker h).1) hfollow
      (List.getElem?_eq_getElem hbound)
    rw [hfinished _ (List.getElem_mem hbound)] at hframes
    exact ⟨_, hframes⟩

theorem Run.orders_agree_sample :
    CommandLine.build Sample.world.directory Sample.tree Sample.line =
        (Sample.world.files, .ok Sample.pipeline) ∧
      ¬ Races Sample.world Sample.pipeline.verbs ∧
      (∀ order : Nat → Nat, ∃ count, (start Sample.pipeline).follow Sample.world
        ((List.range count).map fun turn => .step (order turn)) = none) ∧
      ∀ (order : List Nat) (after : Run) (later : World),
        (start Sample.pipeline).follow Sample.world (order.map .step) = some (after, later) →
        (∀ position, after.stepAt position later = none) →
          (∀ worker ∈ after.workers, worker = .gone .finished) ∧
          later = ((start Sample.pipeline).settle Sample.world).2 := by
  obtain ⟨hends, hagree⟩ := orders_agree Sample.build_line Sample.not_races
  refine ⟨Sample.build_line, Sample.not_races, hends, fun order after later hfollow hstuck => ?_⟩
  obtain ⟨-, -, -, hend⟩ := hagree order after later hfollow
  obtain ⟨hfinished, -, -, hworld⟩ := hend hstuck
  exact ⟨hfinished, hworld⟩

end LineShell
