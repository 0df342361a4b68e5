import LineShell.Proofs.Moves

/-!
What the channels of a pipeline at work have to do with the workers at their
two ends. A sender is there until its worker has ended; an end mark is the last
thing in its queue, and nobody puts it there who is still running; and a worker
that may still ask for a line has a channel to ask that has not ended for it.
Every step keeps this. It follows that a pipeline with a worker that has not
ended can always go on.
-/

namespace LineShell

/-- Whether a worker may still ask for a line. -/
def Worker.isReader : Worker → Bool
  | .running (.fresh verb) => verb.acceptsInput
  | .running (.reading _) | .running (.receiving _) | .running (.waiting _) => true
  | .running (.writing ..) => true
  | .running (.emitting _ (.read _)) | .running (.sending _ (.read _)) => true
  | _ => false

/-- Whether a worker only passes lines on, and has no part in what happens to the
world. -/
def Worker.isLink : Worker → Bool
  | .running (.fresh verb) => verb.producesOutput
  | .running (.reading (.filter _)) | .running (.receiving (.filter _)) => true
  | .running (.waiting (.filter _)) => true
  | .running (.reading _) | .running (.receiving _) | .running (.waiting _) => false
  | .running (.writing ..) | .running (.storing ..) => false
  | _ => true

/-- Whether the reader of a channel is there and has not been told of an end. -/
def Channel.isLive (channel : Channel) : Bool :=
  channel.hasReceiver && !channel.done

/-- How a channel stands to the worker that writes to it. -/
structure Fed (writer : Worker) (channel : Channel) : Prop where
  link : writer.isLink = true
  sender : channel.hasSender = false ↔ ∃ exit, writer = .gone exit
  unmarked : writer.isRunning = true → .finish ∉ channel.queue
  unended : writer.isRunning = true → channel.ended = false
  marked : .finish ∉ channel.queue.dropLast

namespace Post

/-- A worker that may still ask for a line has a live channel to ask. -/
def HasLiveInbox (post : Post) : Prop :=
  post.worker.isReader = true → ∃ channel, post.inbox = some channel ∧ channel.isLive = true

/-- The channel into a post comes from the worker before it, if there is one. -/
def Joined : Option Worker → Option Channel → Prop
  | none, inbox => inbox = none
  | some writer, inbox => ∃ channel, inbox = some channel ∧ Fed writer channel

/-- Every channel among some posts is in order, the one into the first of them
included. -/
def WellWired : Option Worker → List Post → Prop
  | _, [] => True
  | before, post :: rest =>
    Joined before post.inbox ∧ post.HasLiveInbox ∧ WellWired (some post.worker) rest

end Post

private theorem Fed.inputAfter {writer : Worker} {channel : Channel} (h : Fed writer channel)
    (reader : Worker) : Fed writer (reader.inputAfter channel) := by
  obtain ⟨hsender, hqueue⟩ := reader.inputAfter_spec channel
  refine ⟨h.link, ?_, ?_, ?_, ?_⟩
  · rw [hsender]
    exact h.sender
  · intro hrunning hmem
    exact h.unmarked hrunning (hqueue.subset hmem)
  · intro hrunning
    rw [reader.ended_inputAfter]
    exact h.unended hrunning
  · intro hmem
    obtain ⟨front, hfront⟩ := hqueue
    have hne : (reader.inputAfter channel).queue ≠ [] := by
      intro hnil
      simp [hnil] at hmem
    apply h.marked
    rw [← hfront, List.dropLast_append_of_ne_nil hne]
    exact List.mem_append_right _ hmem

namespace Body

private theorem isLink_flushing (lines : List Text) :
    (Worker.running (flushing lines)).isLink = true := by
  cases lines <;> rfl

private theorem isLink_readOn (filter : Filter) :
    (Worker.running (readOn filter)).isLink = true := by
  unfold readOn
  split <;> rfl

private theorem isLink_conclude (filter : Filter) :
    (Worker.running (conclude (.filter filter))).isLink = true := by
  simp only [conclude]
  split
  · rfl
  · exact isLink_flushing _

private theorem isLink_handle (line : Text) (filter : Filter) :
    (Worker.running (handle line (.filter filter))).isLink = true := by
  simp only [handle]
  split
  · rfl
  · exact isLink_readOn _

/-- A verb that writes lines begins as a link and leaves the world as it is. -/
theorem isLink_start {world : World} {verb : Verb} (h : verb.producesOutput = true) :
    (Worker.running (start world verb).1).isLink = true ∧ (start world verb).2 = world := by
  cases verb with
  | cat path => exact ⟨isLink_flushing _, rfl⟩
  | ls => exact ⟨isLink_flushing _, rfl⟩
  | pwd => exact ⟨rfl, rfl⟩
  | grep query => exact ⟨isLink_readOn (.matching query), rfl⟩
  | uniq => exact ⟨isLink_readOn (.distinct []), rfl⟩
  | wc => exact ⟨isLink_readOn (.counting {}), rfl⟩
  | head => exact ⟨isLink_readOn (.first keptLines), rfl⟩
  | tail => exact ⟨isLink_readOn (.last []), rfl⟩
  | _ => cases h

private theorem isLink_resume (next : Continuation) :
    (Worker.running (resume next)).isLink = true := by
  cases next with
  | read filter => exact isLink_readOn filter
  | flush lines => exact isLink_flushing lines

private theorem isLink_of_goes {body ahead : Body} {wiring after : Wiring} {world later : World}
    (h : body.Goes wiring world ahead after later)
    (hlink : (Worker.running body).isLink = true) :
    (Worker.running ahead).isLink = true ∧ later = world := by
  cases h with
  | begin verb => exact isLink_start hlink
  | shut reader | finish reader =>
      cases reader with
      | filter filter => exact ⟨isLink_conclude filter, rfl⟩
      | _ => cases hlink
  | take reader =>
      cases reader with
      | filter filter => exact ⟨isLink_handle _ filter, rfl⟩
      | _ => cases hlink
  | look reader | wait reader | wake reader =>
      cases reader with
      | filter filter => exact ⟨rfl, rfl⟩
      | _ => cases hlink
  | write line reader => cases hlink
  | store place held => cases hlink
  | send line next => exact ⟨isLink_resume next, rfl⟩
  | _ => exact ⟨rfl, rfl⟩

end Body

/-- A link stays one, and leaves the world as it is. -/
theorem Worker.isLink_of_step {worker next : Worker} {wiring after : Wiring}
    {world later : World} (h : worker.step wiring world = some (next, after, later))
    (hlink : worker.isLink = true) : next.isLink = true ∧ later = world := by
  cases goes_of_step h with
  | work hbody => exact Body.isLink_of_goes hbody hlink
  | _ => exact ⟨rfl, rfl⟩

private theorem Fed.outputAfter {worker next : Worker} {channel : Channel} {wiring after : Wiring}
    {world later : World} (h : Fed worker channel)
    (hstep : worker.step wiring world = some (next, after, later)) :
    Fed next (worker.outputAfter channel) := by
  have hlink := (Worker.isLink_of_step hstep h.link).1
  -- Until the worker has left, its sender is there, and nobody has sent a mark while
  -- it was running.
  have hrunning : worker.isRunning = true →
      .finish ∉ channel.queue ∧ channel.hasSender = true := by
    intro hrunning
    refine ⟨h.unmarked hrunning, ?_⟩
    rw [← Bool.not_eq_false, h.sender]
    rintro ⟨exit, rfl⟩
    cases hrunning
  cases Worker.goes_of_step hstep with
  | @work body ahead _ _ hbody =>
      obtain ⟨hfree, hsender⟩ := hrunning rfl
      suffices hsend : ∃ lines : List Text, (Worker.running body).outputAfter channel =
          { channel with queue := channel.queue ++ lines.map .line } by
        obtain ⟨lines, hsend⟩ := hsend
        rw [hsend]
        have hafter : .finish ∉ channel.queue ++ lines.map Frame.line := by simp [hfree]
        exact ⟨hlink, by simp [hsender], fun _ => hafter, fun _ => h.unended rfl,
          fun hmem => hafter (List.dropLast_subset _ hmem)⟩
      cases body with
      | sending line next =>
          simp only [Worker.outputAfter, Channel.send]
          split
          · exact ⟨[line], rfl⟩
          · exact ⟨[], by simp⟩
      | ended ending => cases hbody
      | _ => exact ⟨[], by simp [Worker.outputAfter]⟩
  | giveUp =>
      exact ⟨hlink, by simp [Worker.outputAfter, (hrunning rfl).2], nofun, nofun, h.marked⟩
  | @mark ending hown =>
      obtain ⟨hfree, hsender⟩ := hrunning rfl
      cases ending with
      | cancelled => cases hown
      | completed | downstreamClosed =>
          simp only [Worker.outputAfter, Channel.finish]
          split
          · exact ⟨hlink, by simp [hsender], nofun, nofun, h.marked⟩
          · split
            · exact ⟨hlink, by simp [hsender], nofun, nofun, by simpa using hfree⟩
            · exact ⟨hlink, by simp [hsender], nofun, nofun, h.marked⟩
  | leave exit =>
      exact ⟨hlink, by simp [Worker.outputAfter, Channel.dropSender], nofun, nofun, h.marked⟩

namespace Body

private theorem isReader_flushing (lines : List Text) :
    (Worker.running (flushing lines)).isReader = false := by
  cases lines <;> rfl

private theorem isReader_conclude (reader : Reader) :
    (Worker.running (conclude reader)).isReader = false := by
  cases reader with
  | filter filter =>
      simp only [conclude]
      split
      · rfl
      · exact isReader_flushing _
  | _ => rfl

/-- Only a verb that reads lines makes a reader. -/
theorem isReader_start {world : World} {verb : Verb}
    (h : (Worker.running (start world verb).1).isReader = true) : verb.acceptsInput = true := by
  cases verb with
  | cat path =>
      simp only [start] at h
      rw [isReader_flushing] at h
      cases h
  | ls =>
      simp only [start] at h
      rw [isReader_flushing] at h
      cases h
  | pwd => cases h
  | cd change => cases h
  | exit => cases h
  | _ => rfl

end Body

/-- A line that was taken, or that was not there, leaves the channel live. -/
theorem Wiring.isLive_receive {wiring after : Wiring} {reception : Reception} {channel : Channel}
    (h : wiring.receive = (after, reception)) (hinput : wiring.input = some channel)
    (hlive : channel.isLive = true) (hmore : reception ≠ .finished) :
    channel.takeLine.1.isLive = true := by
  obtain ⟨hopen, hdone⟩ : channel.hasReceiver = true ∧ channel.done = false := by
    simpa [Channel.isLive] using hlive
  simp only [Wiring.receive, hinput, hopen, if_true, Prod.mk.injEq] at h
  obtain ⟨-, hreception⟩ := h
  revert hreception
  unfold Channel.takeLine
  rw [hdone]
  split
  · rename_i hfalse
    cases hfalse
  · split
    · exact fun _ => by simp [Channel.isLive, hopen]
    · exact fun hreception => absurd hreception.symm hmore
    · split
      · exact fun _ => hlive
      · exact fun hreception => absurd hreception.symm hmore

/-- A worker that may still ask for a line after a step could do so before, and
the step has left its channel live. -/
theorem Worker.isReader_of_step {worker next : Worker} {wiring after : Wiring}
    {world later : World} (h : worker.step wiring world = some (next, after, later))
    (hnext : next.isReader = true) :
    worker.isReader = true ∧ ∀ channel, wiring.input = some channel → channel.isLive = true →
      (worker.inputAfter channel).isLive = true := by
  cases goes_of_step h with
  | work hbody =>
      cases hbody with
      | begin verb => exact ⟨Body.isReader_start hnext, fun _ _ hlive => hlive⟩
      | look reader | wake reader | write line reader =>
          exact ⟨rfl, fun _ _ hlive => hlive⟩
      | take reader hreceived | wait reader hreceived =>
          refine ⟨rfl, fun channel hinput hlive => ?_⟩
          simp only [inputAfter, (Bool.and_eq_true_iff.mp hlive).1, if_true]
          exact Wiring.isLive_receive hreceived hinput hlive (by simp)
      | shut reader | finish reader =>
          rw [Body.isReader_conclude] at hnext
          cases hnext
      | emit line continuation =>
          cases continuation with
          | read filter => exact ⟨rfl, fun _ _ hlive => hlive⟩
          | flush lines => cases hnext
      | send line continuation =>
          cases continuation with
          | read filter => exact ⟨rfl, fun _ _ hlive => hlive⟩
          | flush lines =>
              simp only [Body.resume] at hnext
              rw [Body.isReader_flushing] at hnext
              cases hnext
      | _ => cases hnext
  | _ => cases hnext

namespace Post

/-- One step of the first worker, with its channels named. -/
theorem stepAt_zero {cancelled : Bool} {post : Post} {rest posts : List Post}
    {world later : World} (h : stepAt cancelled 0 (post :: rest) world = some (posts, later)) :
    ∃ worker after, post.worker.step (post.wiring cancelled rest) world =
        some (worker, after, later) ∧
      posts = { worker, inbox := post.inbox.map post.worker.inputAfter } ::
        withInbox ((inboxOf rest).map post.worker.outputAfter) rest := by
  obtain ⟨⟨worker, after, world'⟩, hstep, heq⟩ := Option.map_eq_some_iff.mp h
  simp only [Prod.mk.injEq] at heq
  obtain ⟨rfl, rfl⟩ := heq
  obtain rfl := Worker.wiring_of_step hstep
  exact ⟨worker, _, hstep, rfl⟩

/-- One step of a later worker leaves the first one as it is. -/
theorem stepAt_succ {cancelled : Bool} {position : Nat} {post : Post} {rest posts : List Post}
    {world later : World}
    (h : stepAt cancelled (position + 1) (post :: rest) world = some (posts, later)) :
    ∃ more, stepAt cancelled position rest world = some (more, later) ∧ posts = post :: more := by
  obtain ⟨⟨more, world'⟩, hstep, heq⟩ := Option.map_eq_some_iff.mp h
  simp only [Prod.mk.injEq] at heq
  obtain ⟨rfl, rfl⟩ := heq
  exact ⟨more, hstep, rfl⟩

/-- Every step keeps the channels in order. -/
theorem WellWired.stepAt {cancelled : Bool} {position : Nat} {before : Option Worker}
    {posts after : List Post} {world later : World} (h : WellWired before posts)
    (hstep : Post.stepAt cancelled position posts world = some (after, later)) :
    WellWired before after := by
  induction posts generalizing before position after with
  | nil => simp [Post.stepAt] at hstep
  | cons post rest ih =>
      obtain ⟨hjoined, hliveInbox, hrest⟩ := h
      cases position with
      | zero =>
          obtain ⟨worker, wiring, hworker, rfl⟩ := stepAt_zero hstep
          refine ⟨?_, ?_, ?_⟩
          · cases before with
            | none => rw [show post.inbox = none from hjoined]; rfl
            | some writer =>
                obtain ⟨channel, hinbox, hfed⟩ := hjoined
                exact ⟨_, by rw [hinbox]; rfl, hfed.inputAfter post.worker⟩
          · intro hreader
            obtain ⟨hreads, hkeeps⟩ := Worker.isReader_of_step hworker hreader
            obtain ⟨channel, hinbox, hlive⟩ := hliveInbox hreads
            exact ⟨_, by rw [hinbox]; rfl, hkeeps channel hinbox hlive⟩
          · cases rest with
            | nil => trivial
            | cons next more =>
                obtain ⟨⟨channel, hinbox, hfed⟩, hnext, hmore⟩ := hrest
                have hafter : (inboxOf (next :: more)).map post.worker.outputAfter =
                    some (post.worker.outputAfter channel) := by rw [inboxOf, hinbox]; rfl
                rw [hafter]
                refine ⟨⟨_, rfl, hfed.outputAfter hworker⟩, ?_, hmore⟩
                intro hreader
                obtain ⟨asked, hasked, hlive⟩ := hnext hreader
                obtain rfl : channel = asked := Option.some.inj (hinbox.symm.trans hasked)
                obtain ⟨hreceiver, hdone⟩ := post.worker.outputAfter_spec channel
                refine ⟨_, rfl, ?_⟩
                rw [Channel.isLive, hreceiver, hdone]
                exact hlive
      | succ position =>
          obtain ⟨more, hmore, rfl⟩ := stepAt_succ hstep
          exact ⟨hjoined, hliveInbox, ih hrest hmore⟩

end Post

/-! What it means that a worker cannot take a step. -/

/-- A read has to wait only while the queue is empty and the sender is there. -/
theorem Wiring.queue_of_not_ready {wiring : Wiring} (h : wiring.isReady = false) :
    ∃ channel, wiring.input = some channel ∧ channel.queue = [] ∧ channel.hasSender = true := by
  have hwaiting : wiring.receive.2 = .waiting := by simpa [isReady] using h
  unfold receive at hwaiting
  split at hwaiting
  · rename_i channel hinput
    refine ⟨channel, hinput, ?_⟩
    split at hwaiting
    · simp only [Channel.takeLine] at hwaiting
      split at hwaiting
      · cases hwaiting
      · split at hwaiting
        · cases hwaiting
        · cases hwaiting
        · rename_i hqueue
          split at hwaiting
          · rename_i hsender
            exact ⟨hqueue, hsender⟩
          · cases hwaiting
    · cases hwaiting
  · cases hwaiting

theorem Wiring.isReady_congr {first second : Wiring} (h : first.input = second.input) :
    first.isReady = second.isReady := by
  have hreception : first.receive.2 = second.receive.2 := by
    unfold receive
    rw [← h]
    split
    · split <;> rfl
    · rfl
  simp [isReady, hreception]

namespace Post

/-- Whether a worker has ended. -/
def HasEnded (post : Post) : Prop :=
  ∃ exit, post.worker = .gone exit

/-- A worker of a pipeline that cannot take a step has ended, or waits for a line
that is not there yet, while nothing has been cancelled. -/
theorem rest_of_stepAt_eq_none {cancelled : Bool} {position : Nat} {posts : List Post}
    {post : Post} {world : World} (hpost : posts[position]? = some post)
    (h : stepAt cancelled position posts world = none) :
    post.HasEnded ∨ cancelled = false ∧ ∃ channel, post.inbox = some channel ∧
      channel.queue = [] ∧ channel.hasSender = true := by
  induction posts generalizing position with
  | nil => cases hpost
  | cons first rest ih =>
      cases position with
      | zero =>
          obtain rfl : first = post := by simpa using hpost
          rcases Worker.step_eq_none_iff.mp (Option.map_eq_none_iff.mp h) with
            hgone | ⟨-, hcancelled, hready⟩
          · exact .inl hgone
          · exact .inr ⟨hcancelled, Wiring.queue_of_not_ready hready⟩
      | succ position =>
          exact ih (by simpa using hpost) (Option.map_eq_none_iff.mp h)

/-- A worker that waits has a sender, so the first worker that has not ended never
waits. -/
theorem WellWired.ended_of_stuck {cancelled : Bool} {before : Option Worker} {posts : List Post}
    {world : World} (h : WellWired before posts)
    (hbefore : ∀ writer, before = some writer → ∃ exit, writer = .gone exit)
    (hstuck : ∀ position, Post.stepAt cancelled position posts world = none) :
    ∀ post ∈ posts, post.HasEnded := by
  induction posts generalizing before with
  | nil => simp
  | cons first rest ih =>
      obtain ⟨hjoined, -, hrest⟩ := h
      have hfirst : first.HasEnded := by
        have hplace : (first :: rest)[0]? = some first := rfl
        rcases rest_of_stepAt_eq_none hplace (hstuck 0) with
          hended | ⟨-, channel, hinbox, -, hsender⟩
        · exact hended
        · cases before with
          | none => rw [show first.inbox = none from hjoined] at hinbox; cases hinbox
          | some writer =>
              obtain ⟨fed, hfed, hlink⟩ := hjoined
              obtain rfl : fed = channel := Option.some.inj (hfed.symm.trans hinbox)
              rw [hlink.sender.mpr (hbefore writer rfl)] at hsender
              cases hsender
      have hmore := ih hrest (fun writer hwriter => Option.some.inj hwriter ▸ hfirst)
        (fun position => Option.map_eq_none_iff.mp (hstuck (position + 1)))
      intro post hpost
      rcases List.mem_cons.mp hpost with rfl | hpost
      · exact hfirst
      · exact hmore post hpost

end Post

/-- Every run keeps the channels in order. -/
theorem Run.wellWired_of_follow {run after : Run} {world later : World} {moves : List Move}
    (hstart : Post.WellWired none run.posts)
    (h : run.follow world moves = some (after, later)) : Post.WellWired none after.posts := by
  refine follow_induction (motive := fun _ run _ => Post.WellWired none run.posts) hstart ?_ h
  intro _ before _ move after _ _ hwired hmove
  rcases move_cases hmove with ⟨position, posts, -, rfl, hstep⟩ | ⟨-, -, rfl, -⟩
  · exact hwired.stepAt hstep
  · exact hwired

end LineShell
