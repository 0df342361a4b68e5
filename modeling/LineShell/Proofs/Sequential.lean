import LineShell.Proofs.WellWired

/-!
Running a pipeline to its end is one of the runs that the moves allow: the
workers take their turns from the first to the last, each as far as it comes.
When the last one has had its turn, all of them have ended.
-/

namespace LineShell

/-- Left alone a worker goes on as long as it can, and its token stays as it is. -/
theorem Worker.step_run (worker : Worker) (wiring : Wiring) (world : World) :
    (worker.run wiring world).1.step (worker.run wiring world).2.1
        (worker.run wiring world).2.2 = none ∧
      (worker.run wiring world).2.1.cancelled = wiring.cancelled := by
  fun_induction Worker.run worker wiring world with
  | case1 worker wiring world next after later hstep ih =>
      refine ⟨ih.1, ih.2.trans ?_⟩
      rw [wiring_of_step hstep]
      rfl
  | case2 worker wiring world hstep => exact ⟨hstep, rfl⟩

namespace Post

private theorem withInbox_withInbox (first second : Option Channel) (rest : List Post) :
    withInbox second (withInbox first rest) = withInbox second rest := by
  cases rest <;> rfl

private theorem withInbox_inboxOf (rest : List Post) : withInbox (inboxOf rest) rest = rest := by
  cases rest <;> rfl

private theorem stepAt_append (cancelled : Bool) (left posts : List Post) (position : Nat)
    (world : World) :
    stepAt cancelled (left.length + position) (left ++ posts) world =
      (stepAt cancelled position posts world).map fun (posts, world) => (left ++ posts, world) := by
  induction left with
  | nil => simp
  | cons first left ih =>
      have hplace : (first :: left).length + position = left.length + position + 1 := by
        simp only [List.length_cons]
        omega
      rw [hplace, List.cons_append, stepAt, ih, Option.map_map]
      rfl

/-- Whether a worker cannot go on, whatever happens to the one behind it. -/
def Stuck (cancelled : Bool) (post : Post) : Prop :=
  ∀ rest world, post.worker.step (post.wiring cancelled rest) world = none

private theorem stuck_of_step_eq_none {worker : Worker} {wiring : Wiring} {world : World}
    (h : worker.step wiring world = none) :
    Stuck wiring.cancelled { worker, inbox := wiring.input } := by
  intro rest later
  apply Worker.step_eq_none_iff.mpr
  rcases Worker.step_eq_none_iff.mp h with hgone | ⟨hwaiting, hgoing, hready⟩
  · exact .inl hgone
  · refine .inr ⟨hwaiting, hgoing, ?_⟩
    rw [← hready]
    exact Wiring.isReady_congr rfl

/-- When all workers have had their turns, none of them can go on. -/
theorem stuck_of_runFrom (cancelled : Bool) (post : Post) (rest : List Post) (world : World) :
    ∀ done ∈ (runFrom cancelled post rest world).1, done.Stuck cancelled := by
  induction rest generalizing post world with
  | nil =>
      obtain ⟨hstep, hcancelled⟩ := post.worker.step_run (post.wiring cancelled []) world
      intro done hdone
      obtain rfl := List.mem_singleton.mp hdone
      have hstuck := stuck_of_step_eq_none hstep
      rwa [hcancelled] at hstuck
  | cons next rest ih =>
      obtain ⟨hstep, hcancelled⟩ :=
        post.worker.step_run (post.wiring cancelled (next :: rest)) world
      intro done hdone
      rcases List.mem_cons.mp hdone with rfl | hdone
      · have hstuck := stuck_of_step_eq_none hstep
        rwa [hcancelled] at hstuck
      · exact ih _ _ done hdone

private theorem stepAt_of_stuck {cancelled : Bool} {posts : List Post}
    (h : ∀ post ∈ posts, post.Stuck cancelled) (position : Nat) (world : World) :
    stepAt cancelled position posts world = none := by
  induction posts generalizing position with
  | nil => simp [stepAt]
  | cons post rest ih =>
      cases position with
      | zero => exact Option.map_eq_none_iff.mpr (h post List.mem_cons_self rest world)
      | succ position =>
          exact Option.map_eq_none_iff.mpr
            (ih (fun other hother => h other (List.mem_cons_of_mem _ hother)) position)

end Post

namespace Run

/-- A worker's turn is a run. -/
theorem follow_of_workerRun (worker : Worker) (wiring : Wiring) (world : World) (run : Run)
    (left rest : List Post) (hposts : run.posts = left ++ { worker, inbox := wiring.input } :: rest)
    (houtput : wiring.output = Post.inboxOf rest) (hcancelled : wiring.cancelled = run.cancelled) :
    ∃ order : List Nat, run.follow world (order.map .step) =
      some ({ run with
        posts :=
          left ++ Post.rebuild (worker.run wiring world).1 (worker.run wiring world).2.1 rest },
        (worker.run wiring world).2.2) := by
  fun_induction Worker.run worker wiring world generalizing run rest with
  | case1 worker wiring world next after later hstep ih =>
      have hwiring : Post.wiring run.cancelled { worker, inbox := wiring.input } rest = wiring := by
        rw [Post.wiring, ← houtput, ← hcancelled]
      have hmove : run.stepAt left.length world =
          some ({ run with posts := left ++ Post.rebuild next after rest }, later) := by
        have happend := Post.stepAt_append run.cancelled left
          ({ worker, inbox := wiring.input } :: rest) 0 world
        rw [Nat.add_zero] at happend
        rw [Run.stepAt, hposts, happend, Post.stepAt, hwiring, hstep]
        rfl
      have hafter := Worker.wiring_of_step hstep
      have houtput' : after.output = Post.inboxOf (Post.withInbox after.output rest) := by
        cases rest with
        | nil => rw [hafter]; simp [Worker.rewire, houtput, Post.inboxOf, Post.withInbox]
        | cons follower more => rfl
      have hcancelled' : after.cancelled = run.cancelled := by
        rw [hafter, ← hcancelled]
        rfl
      obtain ⟨order, horder⟩ := ih { run with posts := left ++ Post.rebuild next after rest }
        (Post.withInbox after.output rest) rfl houtput' hcancelled'
      refine ⟨left.length :: order, ?_⟩
      rw [List.map_cons, follow, move, hmove]
      simpa only [Post.rebuild, Post.withInbox_withInbox] using horder
  | case2 worker wiring world hstep =>
      refine ⟨[], ?_⟩
      rw [List.map_nil, follow, Post.rebuild, houtput, Post.withInbox_inboxOf, ← hposts]

/-- The turns of all workers, one after the other, are a run. -/
theorem follow_of_runFrom (post : Post) (rest left : List Post) (run : Run) (world : World)
    (hposts : run.posts = left ++ post :: rest) :
    ∃ order : List Nat, run.follow world (order.map .step) =
      some ({ run with posts := left ++ (Post.runFrom run.cancelled post rest world).1 },
        (Post.runFrom run.cancelled post rest world).2) := by
  induction rest generalizing post left run world with
  | nil =>
      exact follow_of_workerRun post.worker (post.wiring run.cancelled []) world run left [] hposts
        rfl rfl
  | cons next rest ih =>
      obtain ⟨first, hfirst⟩ := follow_of_workerRun post.worker
        (post.wiring run.cancelled (next :: rest)) world run left (next :: rest) hposts rfl rfl
      let turn := post.worker.run (post.wiring run.cancelled (next :: rest)) world
      let done : Post := { worker := turn.1, inbox := turn.2.1.input }
      let follower : Post := { next with inbox := turn.2.1.output }
      obtain ⟨second, hsecond⟩ := ih follower (left ++ [done])
        { run with posts := left ++ done :: follower :: rest } turn.2.2
        (by simp)
      refine ⟨first ++ second, ?_⟩
      rw [List.map_append, follow_append, hfirst]
      refine hsecond.trans ?_
      rw [List.append_assoc]
      rfl

/-- Running a pipeline to its end is a run. -/
theorem follow_settle (run : Run) (world : World) :
    ∃ order : List Nat, run.follow world (order.map .step) = some (run.settle world) := by
  cases hposts : run.posts with
  | nil =>
      refine ⟨[], ?_⟩
      simp only [settle, hposts, Post.runAll, List.map_nil, follow]
      rw [← hposts]
  | cons post rest =>
      obtain ⟨order, horder⟩ := follow_of_runFrom post rest [] run world hposts
      refine ⟨order, horder.trans ?_⟩
      simp only [settle, hposts, Post.runAll, List.nil_append]

/-- A pipeline that has been run to its end cannot go on. -/
theorem stepAt_settle (run : Run) (world : World) (position : Nat) :
    (run.settle world).1.stepAt position (run.settle world).2 = none := by
  refine Option.map_eq_none_iff.mpr (Post.stepAt_of_stuck ?_ position _)
  simp only [settle]
  cases hposts : run.posts with
  | nil => simp [Post.runAll]
  | cons post rest => exact Post.stuck_of_runFrom run.cancelled post rest world

end Run

end LineShell
