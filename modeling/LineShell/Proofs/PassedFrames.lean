import LineShell.Proofs.Outcomes

/-!
The frames between two workers. What a worker hands on is what enters the channel behind
it: the frames that the next worker has taken out of its inbox are the first of them, and
the others wait there in order, as long as there is somebody to take them. So what is
said about the frames that a worker hands on, the end mark among them, is said about the
queue of the next one.
-/

namespace LineShell

/-- How a channel stands to the frames that its writer has handed on, when these have been
taken out of it. -/
structure Passed (frames taken : List Frame) (channel : Channel) : Prop where
  earlier : taken <+: frames
  waiting : channel.hasReceiver = true → frames = taken ++ channel.queue
  unheard : channel.hasReceiver = false → channel.queue = []

namespace Worker

/-- The frames that the next step takes out of the channel that the worker reads from. -/
def framesTaken : Worker → Channel → List Frame
  | .running (.receiving _), channel =>
    if channel.hasReceiver && !channel.done then channel.queue.take 1 else []
  | _, _ => []

/-- A step takes frames from the front of the inbox, or gives it up. -/
theorem inputAfter_cases (worker : Worker) (channel : Channel) :
    (worker.inputAfter channel).hasReceiver = channel.hasReceiver ∧
        channel.queue = worker.framesTaken channel ++ (worker.inputAfter channel).queue ∨
      worker.framesTaken channel = [] ∧ worker.inputAfter channel = channel.dropReceiver := by
  cases worker with
  | running body =>
      cases body with
      | receiving reader =>
          left
          cases hopen : channel.hasReceiver with
          | false => simp [inputAfter, framesTaken, hopen]
          | true =>
              cases hdone : channel.done with
              | true => simp [inputAfter, framesTaken, Channel.takeLine, hopen, hdone]
              | false =>
                  cases hqueue : channel.queue with
                  | nil =>
                      cases hsender : channel.hasSender <;>
                        simp [inputAfter, framesTaken, Channel.takeLine, hopen, hdone, hqueue,
                          hsender]
                  | cons frame rest =>
                      cases frame <;>
                        simp [inputAfter, framesTaken, Channel.takeLine, hopen, hdone, hqueue]
      | closing => exact .inr ⟨rfl, rfl⟩
      | _ => exact .inl ⟨rfl, rfl⟩
  | leaving exit => exact .inr ⟨rfl, rfl⟩
  | gone exit => exact .inl ⟨rfl, rfl⟩

/-- What a worker hands on comes to the end of the queue of the next one, if that is still
there. -/
theorem queue_outputAfter {worker : Worker} {channel : Channel} {wiring : Wiring}
    (h : Fed worker channel) (houtput : wiring.output = some channel) :
    (worker.outputAfter channel).queue =
      channel.queue ++ if channel.hasReceiver then (worker.frameSent wiring).toList else [] := by
  cases worker with
  | running body =>
      have hgoing : channel.ended = false := h.unended rfl
      cases body with
      | writing line reader => cases h.link
      | sending line next =>
          cases hopen : channel.hasReceiver <;>
            simp [outputAfter, frameSent, Channel.send, Wiring.transmit, houtput, hopen]
      | ended ending =>
          cases ending <;> cases hopen : channel.hasReceiver <;>
            simp [outputAfter, frameSent, Channel.finish, hgoing, hopen]
      | _ => simp [outputAfter, frameSent]
  | leaving exit => simp [outputAfter, frameSent, Channel.dropSender]
  | gone exit => simp [outputAfter, frameSent]

end Worker

namespace Passed

variable {frames taken : List Frame} {channel : Channel}

private theorem inputAfter (h : Passed frames taken channel) (worker : Worker) :
    Passed frames (taken ++ worker.framesTaken channel) (worker.inputAfter channel) := by
  rcases worker.inputAfter_cases channel with ⟨hsame, hqueue⟩ | ⟨hnone, hdropped⟩
  · cases hopen : channel.hasReceiver with
    | true =>
        have hframes : frames =
            taken ++ worker.framesTaken channel ++ (worker.inputAfter channel).queue := by
          rw [h.waiting hopen, hqueue, List.append_assoc]
        refine ⟨hframes ▸ List.prefix_append _ _, fun _ => hframes, fun hgone => ?_⟩
        rw [hsame, hopen] at hgone
        cases hgone
    | false =>
        rw [h.unheard hopen] at hqueue
        obtain ⟨hnone, hempty⟩ := List.append_eq_nil_iff.mp hqueue.symm
        rw [hnone, List.append_nil]
        refine ⟨h.earlier, fun hthere => ?_, fun _ => hempty⟩
        rw [hsame, hopen] at hthere
        cases hthere
  · rw [hnone, hdropped, List.append_nil]
    exact ⟨h.earlier, nofun, fun _ => rfl⟩

private theorem outputAfter {worker : Worker} {wiring : Wiring} (h : Passed frames taken channel)
    (hfed : Fed worker channel) (houtput : wiring.output = some channel) :
    Passed (frames ++ (worker.frameSent wiring).toList) taken (worker.outputAfter channel) := by
  have hqueue := Worker.queue_outputAfter hfed houtput
  refine ⟨h.earlier.trans (List.prefix_append _ _), fun hopen => ?_, fun hgone => ?_⟩
  · rw [(worker.outputAfter_spec channel).1] at hopen
    rw [h.waiting hopen, hqueue, if_pos hopen, List.append_assoc]
  · rw [(worker.outputAfter_spec channel).1] at hgone
    rw [hqueue, h.unheard hgone, if_neg (by simp [hgone])]
    rfl

end Passed

namespace Post

/-- The inbox of the post at a position. -/
def inboxAt (posts : List Post) (position : Nat) : Option Channel :=
  posts[position]?.bind Post.inbox

/-- A step moves the inbox of its worker and that of the next one, and no other. -/
theorem inboxAt_of_stepAt {cancelled : Bool} {place : Nat} {posts after : List Post}
    {world later : World} {post : Post} (hpost : posts[place]? = some post)
    (h : stepAt cancelled place posts world = some (after, later)) (position : Nat) :
    inboxAt after position =
      if position = place then (inboxAt posts position).map post.worker.inputAfter
      else if position = place + 1 then (inboxAt posts position).map post.worker.outputAfter
      else inboxAt posts position := by
  induction posts generalizing place after position with
  | nil => cases hpost
  | cons first rest ih =>
      cases place with
      | zero =>
          obtain rfl : first = post := Option.some.inj hpost
          obtain ⟨worker, wiring, -, rfl⟩ := stepAt_zero h
          match position with
          | 0 => rfl
          | 1 => cases rest <;> rfl
          | position + 2 => cases rest <;> simp [inboxAt, withInbox]
      | succ place =>
          obtain ⟨more, hmore, rfl⟩ := stepAt_succ h
          cases position with
          | zero => simp [inboxAt]
          | succ position =>
              have hrest := ih (by simpa using hpost) hmore position
              simpa [inboxAt] using hrest

/-- The channel into a post is in order with the worker before it. -/
theorem WellWired.fed_of_drop {before : Option Worker} {posts rest : List Post} {position : Nat}
    {post : Post} {channel : Channel} (h : WellWired before posts)
    (hdrop : posts.drop position = post :: rest)
    (hinbox : inboxAt posts (position + 1) = some channel) :
    inboxOf rest = some channel ∧ Fed post.worker channel := by
  induction posts generalizing before position with
  | nil => simp at hdrop
  | cons first more ih =>
      cases position with
      | zero =>
          obtain ⟨rfl, rfl⟩ : first = post ∧ more = rest := by simpa using hdrop
          cases more with
          | nil => cases hinbox
          | cons next more =>
              obtain ⟨-, -, ⟨fed, hfed, hlink⟩, -⟩ := h
              have hsame : next.inbox = some channel := hinbox
              obtain rfl : fed = channel := Option.some.inj (hfed.symm.trans hsame)
              exact ⟨hsame, hlink⟩
      | succ position => exact ih h.2.2 (by simpa using hdrop) (by simpa [inboxAt] using hinbox)

end Post

namespace Run

/-- The frames that the worker at a position takes out of its inbox in a move. -/
def framesTakenAt (run : Run) (position : Nat) (move : Move) : List Frame :=
  if move = .step position then
    match run.posts[position]? with
    | some post => post.inbox.elim [] post.worker.framesTaken
    | none => []
  else []

/-- The frames that the worker at a position takes out of its inbox along some moves. -/
def taken (position : Nat) (run : Run) (world : World) (moves : List Move) : List Frame :=
  run.collect (fun run => run.framesTakenAt position) world moves

variable {run after : Run} {world later : World} {moves : List Move}

private theorem taken_concat (h : run.follow world moves = some (after, later)) {move : Move}
    {last : Run × World} (hlast : after.move later move = some last) (position : Nat) :
    run.taken position world (moves ++ [move]) =
      run.taken position world moves ++ after.framesTakenAt position move :=
  collect_concat _ h hlast

private theorem framesTakenAt_other {position : Nat} {move : Move} (h : move ≠ .step position)
    (run : Run) : run.framesTakenAt position move = [] :=
  if_neg h

/-- Whatever move comes next, what a worker hands on in it enters the channel of the next
one, and what that one takes in it leaves the channel. -/
theorem passed_of_move {before : Run} {move : Move} (hwired : Post.WellWired none before.posts)
    (hmove : before.move world move = some (after, later)) {position : Nat}
    {frames taken : List Frame}
    (h : ∀ channel, Post.inboxAt before.posts (position + 1) = some channel →
      Passed frames taken channel)
    {channel : Channel} (hinbox : Post.inboxAt after.posts (position + 1) = some channel) :
    Passed (frames ++ before.framesSent position move)
      (taken ++ before.framesTakenAt (position + 1) move) channel := by
  rcases move_cases hmove with ⟨place, posts, rfl, rfl, hstep⟩ | ⟨rfl, -, rfl, -⟩
  · obtain ⟨post, rest, next, wiring, hdrop, hworker, hframe, -⟩ := Post.single_of_stepAt hstep
    have hpost := Post.getElem?_of_drop hdrop
    rw [Post.inboxAt_of_stepAt hpost hstep] at hinbox
    -- The step is that of the reader of the channel, that of its writer, or of neither.
    by_cases hreads : position + 1 = place
    · subst hreads
      rw [if_pos rfl] at hinbox
      obtain ⟨asked, hasked, rfl⟩ := Option.map_eq_some_iff.mp hinbox
      have htaken : before.framesTakenAt (position + 1) (.step (position + 1)) =
          post.worker.framesTaken asked := by
        have hbox : post.inbox = some asked := by simpa [Post.inboxAt, hpost] using hasked
        simp [framesTakenAt, hpost, hbox]
      rw [framesSent_other (Nat.succ_ne_self _), htaken, List.append_nil]
      exact (h asked hasked).inputAfter post.worker
    rw [if_neg hreads] at hinbox
    rw [framesTakenAt_other (by simpa using Ne.symm hreads), List.append_nil]
    by_cases hwrites : place = position
    · subst hwrites
      rw [if_pos rfl] at hinbox
      obtain ⟨fed, hfed, rfl⟩ := Option.map_eq_some_iff.mp hinbox
      obtain ⟨houtput, hlink⟩ := hwired.fed_of_drop hdrop hfed
      rw [framesSent, if_pos rfl, hframe]
      exact (h fed hfed).outputAfter hlink houtput
    · rw [if_neg (by omega)] at hinbox
      rw [framesSent_other hwrites, List.append_nil]
      exact h channel hinbox
  · rw [framesSent_cancel, framesTakenAt_other (by simp), List.append_nil, List.append_nil]
    exact h channel hinbox

/-- Along every run the frames that a worker hands on are those that enter the channel of
the next one. -/
theorem passed_of_follow (hwired : Post.WellWired none run.posts)
    (hfresh : ∀ position channel, Post.inboxAt run.posts (position + 1) = some channel →
      channel = {})
    (h : run.follow world moves = some (after, later)) {position : Nat} {channel : Channel}
    (hinbox : Post.inboxAt after.posts (position + 1) = some channel) :
    Passed (run.frames position world moves) (run.taken (position + 1) world moves) channel := by
  refine follow_induction (motive := fun moves after _ => ∀ channel,
    Post.inboxAt after.posts (position + 1) = some channel →
      Passed (run.frames position world moves) (run.taken (position + 1) world moves) channel)
    ?_ ?_ h channel hinbox
  · intro channel hinbox
    obtain rfl := hfresh position channel hinbox
    exact ⟨List.nil_prefix, fun _ => rfl, fun _ => rfl⟩
  · intro moves before earlier move after later hmoves hbefore hmove channel hinbox
    rw [frames_concat hmoves hmove, taken_concat hmoves hmove]
    exact passed_of_move (wellWired_of_follow hwired hmoves) hmove hbefore hinbox

end Run

private theorem Post.inbox_lined {hasInput : Bool} {verbs : List Verb} {post : Post}
    (h : post ∈ lined hasInput verbs) {channel : Channel} (hinbox : post.inbox = some channel) :
    channel = {} := by
  induction verbs generalizing hasInput with
  | nil => cases h
  | cons verb rest ih =>
      rcases List.mem_cons.mp h with rfl | hrest
      · cases hasInput with
        | false => cases hinbox
        | true => exact (Option.some.inj hinbox).symm
      · exact ih hrest

/-- So it is along every run of an accepted line. -/
theorem Begins.passed {world later : World} {verbs : List Verb} {run after : Run}
    {moves : List Move} (h : Begins world verbs run)
    (hfollow : run.follow world moves = some (after, later)) {position : Nat} {channel : Channel}
    (hinbox : Post.inboxAt after.posts (position + 1) = some channel) :
    Passed (run.frames position world moves) (run.taken (position + 1) world moves) channel := by
  refine Run.passed_of_follow h.wellWired ?_ hfollow hinbox
  rw [h.posts]
  intro place fed hfed
  obtain ⟨post, hpost, hbox⟩ := Option.bind_eq_some_iff.mp hfed
  exact Post.inbox_lined (List.mem_of_getElem? hpost) hbox

end LineShell
