import LineShell.Proofs.Sinks
import LineShell.Proofs.Termination
import LineShell.Proofs.UnfedWorkers

/-!
What holds along every run of a pipeline, whatever the order of its moves. Each
worker hands on some lines and then, when it has come to an end of its own, one
end mark; without a cancellation none ends in any other way; the last worker
alone changes the world; and the lines of each worker are what was expected of
it at the start, or a beginning of that.
-/

namespace LineShell

namespace Post

/-- A step is one of a single worker. The others stay as they are. -/
theorem single_of_stepAt {cancelled : Bool} {position : Nat} {posts after : List Post}
    {world later : World} (h : stepAt cancelled position posts world = some (after, later)) :
    ∃ post rest next wiring, posts.drop position = post :: rest ∧
      post.worker.step (post.wiring cancelled rest) world = some (next, wiring, later) ∧
      frameSentAt cancelled position posts = post.worker.frameSent (post.wiring cancelled rest) ∧
      after.map Post.worker = (posts.map Post.worker).set position next := by
  induction posts generalizing position after with
  | nil => simp [stepAt] at h
  | cons post rest ih =>
      cases position with
      | zero =>
          obtain ⟨next, wiring, hstep, rfl⟩ := stepAt_zero h
          refine ⟨post, rest, next, wiring, rfl, hstep, rfl, ?_⟩
          cases rest <;> rfl
      | succ position =>
          obtain ⟨more, hmore, rfl⟩ := stepAt_succ h
          obtain ⟨post', rest', next, wiring, hdrop, hstep, hframe, hworkers⟩ := ih hmore
          exact ⟨post', rest', next, wiring, hdrop, hstep, hframe, by simp [hworkers]⟩

theorem getElem?_of_drop {posts rest : List Post} {position : Nat} {post : Post}
    (h : posts.drop position = post :: rest) : posts[position]? = some post := by
  have hfirst : (posts.drop position)[0]? = some post := by rw [h]; rfl
  simpa using hfirst

theorem WellWired.isLink_of_drop {before : Option Worker} {posts more : List Post}
    {position : Nat} {post next : Post} (h : WellWired before posts)
    (hdrop : posts.drop position = post :: next :: more) : post.worker.isLink = true := by
  induction posts generalizing before position with
  | nil => simp at hdrop
  | cons first rest ih =>
      cases position with
      | zero =>
          obtain ⟨rfl, rfl⟩ : first = post ∧ rest = next :: more := by simpa using hdrop
          obtain ⟨-, -, ⟨channel, -, hfed⟩, -⟩ := h
          exact hfed.link
      | succ position => exact ih h.2.2 (by simpa using hdrop)

end Post

namespace Worker

/-- The end mark, where it has been sent. -/
def mark : Worker → List Frame
  | .leaving .finished | .gone .finished => [.finish]
  | _ => []

/-- A worker hands on lines while it runs, and the end mark last. -/
theorem mark_of_step {worker next : Worker} {wiring after : Wiring} {world later : World}
    (h : worker.step wiring world = some (next, after, later)) :
    worker.mark ++ (worker.frameSent wiring).toList =
      (worker.tells wiring).map .line ++ next.mark := by
  cases goes_of_step h with
  | work hbody =>
      cases hbody with
      | send line next htransmitted => simp [mark, tells, frameSent, htransmitted, Frame.text?]
      | refuse line next htransmitted => simp [mark, tells, frameSent, htransmitted]
      | _ => rfl
  | giveUp => rfl
  | @mark ending hown =>
      cases ending with
      | cancelled => cases hown
      | completed => rfl
      | downstreamClosed => rfl
  | leave exit => cases exit <;> rfl

private theorem outcome?_flushing (lines : List Text) :
    (running (Body.flushing lines)).outcome? ≠ some .cancelled := by
  cases lines <;> simp [Body.flushing, outcome?, Ending.exit]

private theorem outcome?_readOn (filter : Filter) :
    (running (Body.readOn filter)).outcome? = none := by
  unfold Body.readOn
  split <;> rfl

private theorem outcome?_start (world : World) (verb : Verb) :
    (running (Body.start world verb).1).outcome? ≠ some .cancelled := by
  have hfilter : ∀ filter, (running (Body.readOn filter)).outcome? ≠ some .cancelled := by
    simp [outcome?_readOn]
  cases verb with
  | cat path => exact outcome?_flushing _
  | ls => exact outcome?_flushing _
  | redirect path =>
      simp only [Body.start]
      split <;> simp [outcome?]
  | grep query => exact hfilter (.matching query)
  | uniq => exact hfilter (.distinct [])
  | wc => exact hfilter (.counting {})
  | head => exact hfilter (.first keptLines)
  | tail => exact hfilter (.last [])
  | _ => simp [Body.start, Body.flushing, outcome?, Ending.exit]

private theorem outcome?_conclude (reader : Reader) :
    (running (Body.conclude reader)).outcome? ≠ some .cancelled := by
  cases reader with
  | filter filter =>
      simp only [Body.conclude]
      split
      · simp [outcome?]
      · exact outcome?_flushing _
  | _ => simp [Body.conclude, outcome?, Ending.exit]

private theorem outcome?_handle (line : Text) (reader : Reader) :
    (running (Body.handle line reader)).outcome? = none := by
  cases reader with
  | filter filter =>
      simp only [Body.handle]
      split
      · rfl
      · exact outcome?_readOn _
  | _ => rfl

private theorem outcome?_resume (next : Continuation) :
    (running (Body.resume next)).outcome? ≠ some .cancelled := by
  cases next with
  | read filter => simp [Body.resume, outcome?_readOn]
  | flush lines => exact outcome?_flushing lines

/-- Nobody ends as cancelled before the token has fired. -/
theorem outcome?_of_uncancelled_step {worker next : Worker} {wiring after : Wiring}
    {world later : World} (h : worker.step wiring world = some (next, after, later))
    (hgoing : wiring.cancelled = false) (hnext : next.outcome? = some .cancelled) :
    worker.outcome? = some .cancelled := by
  cases goes_of_step h with
  | work hbody =>
      cases hbody with
      | begin verb => exact absurd hnext (outcome?_start world verb)
      | shut reader | finish reader => exact absurd hnext (outcome?_conclude reader)
      | take reader =>
          rw [outcome?_handle] at hnext
          cases hnext
      | send line next => exact absurd hnext (outcome?_resume next)
      | stopReading reader _ hfired | stopWaiting reader hfired | stopEmitting line next hfired =>
          rw [hgoing] at hfired
          cases hfired
      | _ => cases hnext
  | giveUp => rfl
  | mark => cases hnext
  | leave exit => exact hnext

end Worker

theorem of_getElem?_set {α : Type} {items : List α} {place position : Nat} {item found : α}
    (h : (items.set place item)[position]? = some found) :
    place = position ∧ found = item ∨ place ≠ position ∧ items[position]? = some found := by
  rw [List.getElem?_set] at h
  split at h
  · rename_i hplace
    split at h
    · exact .inl ⟨hplace, (Option.some.inj h).symm⟩
    · cases h
  · rename_i hplace
    exact .inr ⟨hplace, h⟩

namespace Run

/-- The lines that the worker at a position hands on along some moves. -/
def told (position : Nat) (run : Run) (world : World) (moves : List Move) : List Text :=
  (run.frames position world moves).filterMap Frame.text?

/-- The workers of a pipeline, from the first to the last. -/
def workers (run : Run) : List Worker :=
  run.posts.map Post.worker

variable {run after : Run} {world later : World} {moves : List Move}

private theorem length_of_move {move : Move} (h : run.move world move = some (after, later)) :
    after.posts.length = run.posts.length := by
  rcases move_cases h with ⟨position, posts, -, rfl, hstep⟩ | ⟨-, -, rfl, -⟩
  · exact Post.length_of_stepAt hstep
  · rfl

theorem length_of_follow (h : run.follow world moves = some (after, later)) :
    after.posts.length = run.posts.length := by
  refine follow_induction (motive := fun _ after _ => after.posts.length = run.posts.length)
    rfl ?_ h
  intro _ before _ _ after _ _ hbefore hmove
  exact (length_of_move hmove).trans hbefore

theorem exitRequested_of_follow (h : run.follow world moves = some (after, later)) :
    after.exitRequested = run.exitRequested := by
  refine follow_induction
    (motive := fun _ after _ => after.exitRequested = run.exitRequested) rfl ?_ h
  intro _ before _ _ after _ _ hbefore hmove
  rcases move_cases hmove with ⟨_, _, -, rfl, -⟩ | ⟨-, -, rfl, -⟩ <;> exact hbefore

/-- Where the token has not fired, it has not fired before. -/
theorem uncancelled_of_move {move : Move} (h : run.move world move = some (after, later))
    (hgoing : after.cancelled = false) : run.cancelled = false := by
  rcases move_cases h with ⟨_, _, -, rfl, -⟩ | ⟨-, hrun, -, -⟩
  · exact hgoing
  · exact hrun

theorem uncancelled_of_steps {order : List Nat}
    (h : run.follow world (order.map .step) = some (after, later)) :
    after.cancelled = run.cancelled := by
  induction order generalizing run world with
  | nil =>
      obtain ⟨rfl, -⟩ : run = after ∧ world = later := by simpa [follow] using h
      rfl
  | cons position order ih =>
      rw [List.map_cons, follow] at h
      split at h
      · rename_i next middle hmove
        obtain ⟨_, _, -, rfl, -⟩ | ⟨hcancel, -⟩ := move_cases hmove
        · have hrest := ih h
          exact hrest
        · cases hcancel
      · cases h

/-- A worker that has not begun has not changed. -/
theorem fresh_of_follow {position : Nat} {verb : Verb}
    (h : run.follow world moves = some (after, later))
    (hfresh : after.workers[position]? = some (.running (.fresh verb))) :
    run.workers[position]? = some (.running (.fresh verb)) := by
  refine follow_induction (motive := fun _ after _ =>
    after.workers[position]? = some (.running (.fresh verb)) →
      run.workers[position]? = some (.running (.fresh verb))) id ?_ h hfresh
  intro _ before earlier _ after later _ hbefore hmove hfresh
  rcases move_cases hmove with ⟨place, posts, -, rfl, hstep⟩ | ⟨-, -, rfl, -⟩
  · obtain ⟨post, rest, next, wiring, -, hworker, -, hworkers⟩ := Post.single_of_stepAt hstep
    rw [workers, hworkers] at hfresh
    rcases of_getElem?_set hfresh with ⟨-, rfl⟩ | ⟨-, hsame⟩
    · cases Worker.isFresh_of_step hworker
    · exact hbefore hsame
  · exact hbefore hfresh

theorem framesSent_cancel (run : Run) (position : Nat) : run.framesSent position .cancel = [] := rfl

theorem framesSent_other {position place : Nat} (h : place ≠ position) (run : Run) :
    run.framesSent position (.step place) = [] := by
  simp [framesSent, h]

private theorem told_concat (h : run.follow world moves = some (after, later)) {move : Move}
    {last : Run × World} (hlast : after.move later move = some last) (position : Nat) :
    run.told position world (moves ++ [move]) =
      run.told position world moves ++ (after.framesSent position move).filterMap Frame.text? := by
  rw [told, frames_concat h hlast, List.filterMap_append]
  rfl

/-- Every worker hands on some lines, and then the end mark if it has come to an end
of its own. -/
theorem frames_of_follow {position : Nat} {worker : Worker}
    (hstart : ∀ worker ∈ run.workers, worker.isRunning = true)
    (h : run.follow world moves = some (after, later))
    (hworker : after.workers[position]? = some worker) :
    run.frames position world moves =
      (run.told position world moves).map .line ++ worker.mark := by
  refine follow_induction (motive := fun moves after _ => ∀ worker,
    after.workers[position]? = some worker → run.frames position world moves =
      (run.told position world moves).map .line ++ worker.mark) ?_ ?_ h worker hworker
  · intro worker hworker
    have hrunning := hstart worker (List.mem_of_getElem? hworker)
    cases worker with
    | running body => rfl
    | leaving exit => cases hrunning
    | gone exit => cases hrunning
  · intro moves before earlier move after later hmoves hbefore hmove now hnow
    rw [frames_concat hmoves hmove, told_concat hmoves hmove]
    rcases move_cases hmove with ⟨place, posts, rfl, rfl, hstep⟩ | ⟨rfl, -, rfl, -⟩
    · obtain ⟨post, rest, next, wiring, hdrop, hpost, hframe, hworkers⟩ :=
        Post.single_of_stepAt hstep
      rw [workers, hworkers] at hnow
      rcases of_getElem?_set hnow with ⟨rfl, rfl⟩ | ⟨hplace, hsame⟩
      · have hthere : before.workers[place]? = some post.worker := by
          rw [workers, List.getElem?_map, Post.getElem?_of_drop hdrop]
          rfl
        have hsent : before.framesSent place (.step place) =
            (post.worker.frameSent (post.wiring before.cancelled rest)).toList := by
          rw [framesSent, if_pos rfl, hframe]
        rw [hbefore _ hthere, hsent, List.append_assoc, Worker.mark_of_step hpost]
        exact (List.append_assoc _ _ _).symm.trans (by rw [← List.map_append]; rfl)
      · rw [framesSent_other hplace]
        simpa using hbefore now hsame
    · rw [framesSent_cancel]
      simpa using hbefore now hnow

/-- Without a cancellation no worker ends as cancelled. -/
theorem outcome?_of_uncancelled {worker : Worker}
    (hstart : ∀ worker ∈ run.workers, worker.isRunning = true ∧ worker.outcome? = none)
    (h : run.follow world moves = some (after, later)) (hgoing : after.cancelled = false)
    (hworker : worker ∈ after.workers) : worker.outcome? ≠ some .cancelled := by
  refine follow_induction (motive := fun _ after _ => after.cancelled = false →
    ∀ worker ∈ after.workers, worker.outcome? ≠ some .cancelled) ?_ ?_ h hgoing worker hworker
  · intro _ worker hworker
    rw [(hstart worker hworker).2]
    exact nofun
  · intro _ before _ move after later _ hbefore hmove hgoing worker hworker
    have hearlier := hbefore (uncancelled_of_move hmove hgoing)
    rcases move_cases hmove with ⟨place, posts, rfl, rfl, hstep⟩ | ⟨-, -, rfl, -⟩
    · obtain ⟨post, rest, next, wiring, hdrop, hpost, -, hworkers⟩ := Post.single_of_stepAt hstep
      rw [workers, hworkers] at hworker
      rcases List.mem_or_eq_of_mem_set hworker with hold | rfl
      · exact hearlier worker hold
      · intro hcancelled
        have hthere : post.worker ∈ before.workers :=
          List.mem_map_of_mem (List.mem_of_getElem? (Post.getElem?_of_drop hdrop))
        exact hearlier _ hthere (Worker.outcome?_of_uncancelled_step hpost hgoing hcancelled)
    · exact hearlier worker hworker

private theorem framesSent_self (run : Run) (position : Nat) :
    (run.framesSent position (.step position)).filterMap Frame.text? =
      Post.tellsAt run.cancelled position run.posts := by
  rw [framesSent, if_pos rfl, Post.tellsAt]

/-- The world after a run is what its last worker has made of the world before. -/
theorem writes_of_follow {last : Nat} {verb : Verb} (hwired : Post.WellWired none run.posts)
    (hlast : run.posts.length = last + 1) (hverb : verb.producesOutput = false)
    (hfresh : run.workers[last]? = some (.running (.fresh verb)))
    (h : run.follow world moves = some (after, later)) :
    ∃ worker, after.workers[last]? = some worker ∧
      Writes world verb worker (run.told last world moves) later := by
  refine follow_induction (motive := fun moves after later => ∃ worker,
    after.workers[last]? = some worker ∧
      Writes world verb worker (run.told last world moves) later) ?_ ?_ h
  · exact ⟨_, hfresh, .fresh⟩
  · intro moves before earlier move after later hmoves hbefore hmove
    obtain ⟨worker, hworker, hwrites⟩ := hbefore
    have hlength := length_of_follow hmoves
    rw [told_concat hmoves hmove]
    rcases move_cases hmove with ⟨place, posts, rfl, rfl, hstep⟩ | ⟨rfl, -, rfl, rfl⟩
    · obtain ⟨post, rest, next, wiring, hdrop, hpost, hframe, hworkers⟩ :=
        Post.single_of_stepAt hstep
      by_cases hplace : place = last
      · subst hplace
        have hthere : before.workers[place]? = some post.worker := by
          rw [workers, List.getElem?_map, Post.getElem?_of_drop hdrop]
          rfl
        obtain rfl : worker = post.worker := Option.some.inj (hworker.symm.trans hthere)
        refine ⟨next, ?_, ?_⟩
        · have hbound : place < before.posts.length := by omega
          simp [workers, hworkers, hbound]
        · rw [framesSent_self, Post.tellsAt, hframe]
          exact hwrites.step hverb hpost
      · have hrest : rest ≠ [] := by
          rintro rfl
          have hcount := congrArg List.length hdrop
          simp only [List.length_drop, List.length_singleton] at hcount
          omega
        obtain ⟨follower, more, rfl⟩ := List.exists_cons_of_ne_nil hrest
        have hlink := (wellWired_of_follow hwired hmoves).isLink_of_drop hdrop
        obtain rfl := (Worker.isLink_of_step hpost hlink).2
        refine ⟨worker, ?_, ?_⟩
        · rw [workers, hworkers, List.getElem?_set_ne hplace]
          exact hworker
        · simpa [framesSent_other hplace] using hwrites
    · exact ⟨worker, hworker, by simpa [framesSent_cancel] using hwrites⟩

/-- As long as the first worker has not begun, no line has come to the others, and none of
them has handed one on. -/
theorem unfed_of_follow {verb : Verb} (hwired : Post.WellWired none run.posts)
    (hstart : ∀ post ∈ run.posts.tail, post.Unfed run.cancelled)
    (h : run.follow world moves = some (after, later))
    (hfresh : after.workers[0]? = some (.running (.fresh verb))) :
    (∀ post ∈ after.posts.tail, post.Unfed after.cancelled) ∧
      ∀ position, run.told (position + 1) world moves = [] := by
  refine follow_induction (motive := fun moves after _ =>
    after.workers[0]? = some (.running (.fresh verb)) →
      (∀ post ∈ after.posts.tail, post.Unfed after.cancelled) ∧
        ∀ position, run.told (position + 1) world moves = []) ?_ ?_ h hfresh
  · exact fun _ => ⟨hstart, fun _ => rfl⟩
  · intro moves before earlier move after later hmoves hbefore hmove hfresh
    have hone : before.follow earlier [move] = some (after, later) := by
      rw [follow, hmove]
      rfl
    have hunbegun := fresh_of_follow hone hfresh
    obtain ⟨hunfed, htold⟩ := hbefore hunbegun
    have hordered := wellWired_of_follow hwired hmoves
    rcases move_cases hmove with ⟨place, posts, rfl, rfl, hstep⟩ | ⟨rfl, -, rfl, -⟩
    · cases hposts : before.posts with
      | nil => simp [hposts, Post.stepAt] at hstep
      | cons first rest =>
          have hfirst : first.worker = .running (.fresh verb) := by
            rw [workers, hposts] at hunbegun
            exact Option.some.inj hunbegun
          rw [hposts] at hstep hunfed hordered
          cases place with
          | zero =>
              -- The first worker has not taken a step, since then it would have begun.
              obtain ⟨worker, wiring, hworker, rfl⟩ := Post.stepAt_zero hstep
              obtain rfl : worker = .running (.fresh verb) := Option.some.inj hfresh
              cases Worker.isFresh_of_step hworker
          | succ place =>
              obtain ⟨more, hmore, rfl⟩ := Post.stepAt_succ hstep
              have hwriter : before.cancelled = false → ∀ writer,
                  some first.worker = some writer → writer.isRunning = true := by
                rintro - _ ⟨⟩
                rw [hfirst]
                rfl
              refine ⟨Post.Unfed.stepAt hunfed hordered.2.2 hwriter hmore, fun position => ?_⟩
              rw [told_concat hmoves hmove, htold, List.nil_append]
              by_cases hplace : place = position
              · subst hplace
                rw [framesSent_self, hposts]
                exact Post.Unfed.tellsAt hunfed place
              · rw [framesSent_other (by omega)]
                rfl
    · refine ⟨fun post hpost => (hunfed post hpost).cancel, fun position => ?_⟩
      rw [told_concat hmoves hmove, htold, framesSent_cancel]
      rfl

/-- With these lines in the source, every worker has handed on, and is yet to hand
on, what was expected of it at the start, or a beginning of it; and the last
worker all of it, as long as nothing has been cancelled. -/
def Kept (source : List Text) (run : Run) (world : World) (moves : List Move) (after : Run) :
    Prop :=
  ∀ position, Agrees (after.cancelled || decide (position + 1 < run.posts.length))
    (run.told position world moves ++
      Post.expected after.cancelled source [] after.posts position)
    (Post.expected false source [] run.posts position)

private theorem Kept.start {source : List Text} (hgoing : run.cancelled = false) :
    Kept source run world [] run := by
  intro position
  rw [hgoing]
  exact .of_eq rfl

/-- A move keeps what was expected, where a source that begins in it reads the given
lines. -/
theorem Kept.concat {source : List Text} {before : Run} {earlier : World} {move : Move}
    (hkept : Kept source run world moves before)
    (hmoves : run.follow world moves = some (before, earlier))
    (hmove : before.move earlier move = some (after, later))
    (hwired : Post.WellWired none before.posts)
    (hsource : ∀ position verb, move = .step position →
      before.workers[position]? = some (.running (.fresh verb)) → verb.isSource = true →
      source = verb.reads earlier) :
    Kept source run world (moves ++ [move]) after := by
  have hlength := length_of_follow hmoves
  intro position
  have hposition := hkept position
  rw [told_concat hmoves hmove, List.append_assoc]
  rcases move_cases hmove with ⟨place, posts, rfl, rfl, hstep⟩ | ⟨rfl, hgoing, rfl, rfl⟩
  · have hbegins : ∀ post verb, before.posts[place]? = some post →
        post.worker = .running (.fresh verb) → verb.isSource = true →
        source = verb.reads earlier := by
      intro post verb hpost hfresh
      refine hsource place verb rfl ?_
      rw [workers, List.getElem?_map, hpost, Option.map_some, hfresh]
    have hnone : ∀ writer, (none : Option Worker) = some writer → writer.isRunning = false →
        ([] : List Text) = [] := fun _ _ _ => rfl
    obtain ⟨hself, hothers⟩ := Post.expected_of_stepAt hstep hwired hnone hbegins
    by_cases hplace : place = position
    · subst hplace
      rw [framesSent_self]
      rw [hlength] at hself
      exact (hself.append_left _).trans hposition
    · rw [framesSent_other hplace]
      refine Agrees.trans (.append_left _ ?_) hposition
      exact (hothers position (Ne.symm hplace)).weaken (by simp +contextual)
  · rw [framesSent_cancel]
    have hcut : Post.expected true source [] before.posts position <+:
        Post.expected false source [] before.posts position :=
      Post.expected_cancel List.prefix_rfl source before.posts position
    rw [hgoing] at hposition
    refine Agrees.of_cancelled ?_
    exact ((List.prefix_append_right_inj _).mpr hcut).trans hposition.1

/-- As long as a source at the start of a run has not begun, the world is one that it may
meet. -/
theorem met_of_follow {last : Nat} {verb : Verb} (hwired : Post.WellWired none run.posts)
    (hlast : run.posts.length = last + 1) (hverb : verb.producesOutput = false)
    (hfresh : run.workers[last]? = some (.running (.fresh verb)))
    (hunfed : ∀ post ∈ run.posts.tail, post.Unfed run.cancelled)
    (h : run.follow world moves = some (after, later)) {source : Verb}
    (hsource : source.isSource = true)
    (hunbegun : after.workers[0]? = some (.running (.fresh source))) : Met world verb later := by
  obtain ⟨worker, -, hwrites⟩ := writes_of_follow hwired hlast hverb hfresh h
  have htold := (unfed_of_follow hwired hunfed h hunbegun).2
  cases last with
  | zero =>
      -- The only worker would be a source and the last one.
      obtain rfl : verb = source := by
        simpa [hfresh] using fresh_of_follow h hunbegun
      simp [Verb.isSource, hverb] at hsource
  | succ last => exact ⟨worker, htold last ▸ hwrites⟩

/-- In every run what was expected is kept for the lines that the source reads, in
whatever world it begins. -/
theorem kept_of_follow {last : Nat} {verb source : Verb} (hwired : Post.WellWired none run.posts)
    (hlast : run.posts.length = last + 1) (hverb : verb.producesOutput = false)
    (hfresh : run.workers[last]? = some (.running (.fresh verb)))
    (hfirst : ∀ position verb, run.workers[position]? = some (.running (.fresh verb)) →
      verb.isSource = true → position = 0 ∧ verb = source)
    (hunfed : ∀ post ∈ run.posts.tail, post.Unfed run.cancelled)
    (hgoing : run.cancelled = false) (h : run.follow world moves = some (after, later)) :
    ∃ seen, Met world verb seen ∧ Kept (source.reads seen) run world moves after := by
  suffices hmotive : (∀ lines, Kept lines run world moves after) ∨
      (∃ seen, Met world verb seen ∧ Kept (source.reads seen) run world moves after) ∧
        ∀ verb, after.workers[0]? ≠ some (.running (.fresh verb)) by
    rcases hmotive with hall | ⟨hsome, -⟩
    · exact ⟨world, ⟨_, .fresh⟩, hall _⟩
    · exact hsome
  refine follow_induction (motive := fun moves after _ =>
    (∀ lines, Kept lines run world moves after) ∨
      (∃ seen, Met world verb seen ∧ Kept (source.reads seen) run world moves after) ∧
        ∀ verb, after.workers[0]? ≠ some (.running (.fresh verb))) ?_ ?_ h
  · exact .inl fun _ => .start hgoing
  · intro moves before earlier move after later hmoves hbefore hmove
    have hordered := wellWired_of_follow hwired hmoves
    -- A worker that has not begun is the one that was there at the start.
    have hbegins : ∀ position verb, before.workers[position]? = some (.running (.fresh verb)) →
        verb.isSource = true → position = 0 ∧ verb = source := fun position verb hworker =>
      hfirst position verb (fresh_of_follow hmoves hworker)
    rcases hbefore with hall | ⟨⟨seen, hmet, hkept⟩, hbegun⟩
    · by_cases hnow : move = .step 0
      · right
        constructor
        · by_cases hunbegun : source.isSource = true ∧
              before.workers[0]? = some (.running (.fresh source))
          · refine ⟨earlier, met_of_follow hwired hlast hverb hfresh hunfed hmoves hunbegun.1
              hunbegun.2, (hall _).concat hmoves hmove hordered ?_⟩
            intro position verb _ hworker hsource
            rw [(hbegins position verb hworker hsource).2]
          · refine ⟨world, ⟨_, .fresh⟩, (hall _).concat hmoves hmove hordered ?_⟩
            intro position verb _ hworker hsource
            obtain ⟨rfl, rfl⟩ := hbegins position verb hworker hsource
            exact absurd ⟨hsource, hworker⟩ hunbegun
        · intro verb hstill
          subst hnow
          obtain ⟨place, posts, hplace, rfl, hstep⟩ | ⟨hcancel, -⟩ := move_cases hmove
          · obtain rfl := Move.step.inj hplace
            obtain ⟨post, rest, next, wiring, hdrop, hpost, -, hworkers⟩ :=
              Post.single_of_stepAt hstep
            rw [workers, hworkers] at hstill
            rcases of_getElem?_set hstill with ⟨-, rfl⟩ | ⟨hne, -⟩
            · cases Worker.isFresh_of_step hpost
            · exact hne rfl
          · cases hcancel
      · left
        intro lines
        refine (hall lines).concat hmoves hmove hordered ?_
        rintro position verb rfl hworker hsource
        exact absurd (by rw [(hbegins position verb hworker hsource).1]) hnow
    · right
      constructor
      · refine ⟨seen, hmet, hkept.concat hmoves hmove hordered ?_⟩
        intro position verb _ hworker hsource
        obtain ⟨rfl, -⟩ := hbegins position verb hworker hsource
        exact absurd hworker (hbegun verb)
      · intro verb hstill
        have hone : before.follow earlier [move] = some (after, later) := by
          rw [follow, hmove]
          rfl
        exact hbegun verb (fresh_of_follow hone hstill)

end Run

end LineShell
