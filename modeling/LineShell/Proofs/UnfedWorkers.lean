import LineShell.Proofs.ExpectedLines

/-!
The workers behind one that has not begun. No line has come to any of them, and none of
them has handed one on: before there is a line, only the end of the lines could make a
filter write, and there is no end as long as the sender is there. A token that fires may
let some of them end, but then they do not write any more.
-/

namespace LineShell

/-- Whether a worker has nothing to hand on that it could get rid of. As long as nothing
has been cancelled it has yet to begin, or is asking for a line. -/
def Worker.isUnfed (cancelled : Bool) : Worker → Bool
  | .running (.fresh verb) => verb.acceptsInput
  | .running (.reading _) | .running (.receiving _) | .running (.waiting _) => true
  | .running (.writing ..) | .running (.sending ..) => false
  | _ => cancelled

/-- A worker that no line has come to. Nothing is in its inbox, or an end mark behind
workers that have been cancelled. -/
structure Post.Unfed (cancelled : Bool) (post : Post) : Prop where
  worker : post.worker.isUnfed cancelled = true
  inbox : ∀ channel, post.inbox = some channel →
    ∀ frame ∈ channel.queue, cancelled = true ∧ frame = .finish

namespace Worker

variable {cancelled : Bool} {worker next : Worker} {wiring after : Wiring} {world later : World}

private theorem tells_of_isUnfed (h : worker.isUnfed cancelled = true) (wiring : Wiring) :
    worker.tells wiring = [] := by
  cases worker with
  | running body =>
      cases body with
      | writing line reader | sending line next => cases h
      | ended ending => cases ending <;> rfl
      | _ => rfl
  | leaving exit | gone exit => rfl

private theorem isRunning_of_isUnfed (h : worker.isUnfed false = true) :
    worker.isRunning = true := by
  cases worker with
  | running body => rfl
  | leaving exit | gone exit => cases h

private theorem isUnfed_cancel (h : worker.isUnfed cancelled = true) :
    worker.isUnfed true = true := by
  cases worker with
  | running body =>
      cases body with
      | fresh verb => exact h
      | writing line reader | sending line next => cases h
      | _ => rfl
  | leaving exit | gone exit => rfl

/-- It puts no line into the channel behind it. -/
theorem mem_queue_outputAfter (h : worker.isUnfed cancelled = true) {channel : Channel}
    {frame : Frame}
    (hframe : frame ∈ (worker.outputAfter channel).queue) :
    frame ∈ channel.queue ∨ cancelled = true ∧ frame = .finish := by
  cases worker with
  | running body =>
      cases body with
      | sending line next => cases h
      | ended ending =>
          have hcancelled : cancelled = true := h
          cases ending with
          | cancelled => exact .inl hframe
          | completed | downstreamClosed =>
              simp only [outputAfter, Channel.finish] at hframe
              split at hframe
              · exact .inl hframe
              · split at hframe
                · rcases List.mem_append.mp hframe with hold | hmark
                  · exact .inl hold
                  · exact .inr ⟨hcancelled, List.mem_singleton.mp hmark⟩
                · exact .inl hframe
      | _ => exact .inl hframe
  | leaving exit | gone exit => exact .inl hframe

private theorem isUnfed_conclude (reader : Reader) :
    (running (Body.conclude reader)).isUnfed true = true := by
  cases reader with
  | filter filter =>
      simp only [Body.conclude]
      split
      · rfl
      · cases filter.flush <;> rfl
  | console | file place held | nowhere => rfl

private theorem isUnfed_start (world : World) {verb : Verb} (h : verb.acceptsInput = true) :
    (running (Body.start world verb).1).isUnfed cancelled = true := by
  cases verb with
  | cat path | ls | pwd | cd change | exit => cases h
  | redirect path =>
      simp only [Body.start]
      split <;> rfl
  | _ => rfl

/-- A step changes nothing about that, where neither a line nor the end of the lines can
be taken. -/
theorem isUnfed_of_step (h : worker.isUnfed wiring.cancelled = true)
    (hstep : worker.step wiring world = some (next, after, later))
    (hreads : worker.isReader = true → wiring.isReadable = true)
    (hline : ∀ after line, wiring.receive ≠ (after, .line line))
    (hend : wiring.cancelled = false → worker.isReader = true →
      ∀ after, wiring.receive ≠ (after, .finished)) :
    next.isUnfed wiring.cancelled = true := by
  cases goes_of_step hstep with
  | work hbody =>
      cases hbody with
      | begin verb => exact isUnfed_start world h
      | shut reader hclosed =>
          rw [hreads rfl] at hclosed
          cases hclosed
      | take reader hreceived => exact absurd hreceived (hline _ _)
      | finish reader hreceived =>
          cases hcancelled : wiring.cancelled with
          | false => exact absurd hreceived (hend hcancelled rfl _)
          | true => exact isUnfed_conclude reader
      | look reader | wait reader | wake reader => rfl
      | stopReading reader _ hfired | stopWaiting reader hfired => exact hfired
      | write line reader | send line next | refuse line next => cases h
      | emit line next hgoing =>
          rw [show wiring.cancelled = true from h] at hgoing
          cases hgoing
      | store place held | stopEmitting line next | close => exact h
  | giveUp | mark | leave => exact h

end Worker

namespace Post

variable {cancelled : Bool} {position : Nat} {before : Option Worker} {post : Post}
  {posts rest after : List Post} {world later : World}

theorem Unfed.tellsAt (h : ∀ post ∈ posts, post.Unfed cancelled) (position : Nat) :
    Post.tellsAt cancelled position posts = [] := by
  induction posts generalizing position with
  | nil => cases position <;> rfl
  | cons post rest ih =>
      cases position with
      | zero => exact Worker.tells_of_isUnfed (h post List.mem_cons_self).worker _
      | succ position => exact ih (fun other hother => h other (List.mem_cons_of_mem _ hother)) _

theorem Unfed.cancel (h : post.Unfed cancelled) : post.Unfed true :=
  ⟨Worker.isUnfed_cancel h.worker, fun channel hinbox frame hframe =>
    ⟨rfl, (h.inbox channel hinbox frame hframe).2⟩⟩

/-- It has no line to take. -/
theorem Unfed.receive_ne_line (h : post.Unfed cancelled) (rest : List Post) (after : Wiring)
    (line : Text) : (post.wiring cancelled rest).receive ≠ (after, .line line) := by
  intro hreceived
  have harriving := Worker.arriving_receive_line hreceived
  have hnone : arriving post.inbox = [] := by
    cases hinbox : post.inbox with
    | none => rfl
    | some channel =>
        refine List.filterMap_eq_nil_iff.mpr fun frame hframe => ?_
        rw [(h.inbox channel hinbox frame hframe).2]
        rfl
  rw [show (post.wiring cancelled rest).input = post.inbox from rfl, hnone] at harriving
  cases harriving

/-- As long as nothing has been cancelled there is no end of the lines either, since the
sender is there. -/
theorem Unfed.receive_ne_finished (h : post.Unfed false) (hwired : WellWired before (post :: rest))
    (hbefore : ∀ writer, before = some writer → writer.isRunning = true)
    (hreader : post.worker.isReader = true) (after : Wiring) :
    (post.wiring false rest).receive ≠ (after, .finished) := by
  intro hreceived
  obtain ⟨hjoined, hliveInbox, -⟩ := hwired
  obtain ⟨channel, hinbox, hlive⟩ := hliveInbox hreader
  cases before with
  | none => rw [show post.inbox = none from hjoined] at hinbox; cases hinbox
  | some writer =>
      obtain ⟨fed, hfedbox, hfed⟩ := hjoined
      obtain rfl : fed = channel := Option.some.inj (hfedbox.symm.trans hinbox)
      obtain ⟨hopen, hdone⟩ : fed.hasReceiver = true ∧ fed.done = false := by
        simpa [Channel.isLive] using hlive
      have hqueue : fed.queue = [] := by
        refine List.eq_nil_iff_forall_not_mem.mpr fun frame hframe => ?_
        cases (h.inbox fed hinbox frame hframe).1
      have hsender : fed.hasSender = true := by
        rw [← Bool.not_eq_false, hfed.sender]
        rintro ⟨exit, rfl⟩
        cases hbefore _ rfl
      have hreception := congrArg Prod.snd hreceived
      simp [wiring, Wiring.receive, hinbox, hopen, Channel.takeLine, hdone, hqueue, hsender]
        at hreception

/-- A step of one of them leaves them all unfed. -/
theorem Unfed.stepAt (h : ∀ post ∈ posts, post.Unfed cancelled) (hwired : WellWired before posts)
    (hbefore : cancelled = false → ∀ writer, before = some writer → writer.isRunning = true)
    (hstep : Post.stepAt cancelled position posts world = some (after, later)) :
    ∀ post ∈ after, post.Unfed cancelled := by
  induction posts generalizing before position after with
  | nil => simp [Post.stepAt] at hstep
  | cons post rest ih =>
      have hfirst := h post List.mem_cons_self
      have hothers : ∀ other ∈ rest, other.Unfed cancelled :=
        fun other hother => h other (List.mem_cons_of_mem _ hother)
      cases position with
      | zero =>
          obtain ⟨worker, wiring', hworker, rfl⟩ := stepAt_zero hstep
          have hreads : post.worker.isReader = true →
              (post.wiring cancelled rest).isReadable = true := by
            intro hreader
            obtain ⟨channel, hinbox, hlive⟩ := hwired.2.1 hreader
            simp only [Wiring.isReadable, wiring, hinbox, Option.any_some]
            exact (Bool.and_eq_true_iff.mp hlive).1
          have hend : cancelled = false → post.worker.isReader = true →
              ∀ after, (post.wiring cancelled rest).receive ≠ (after, .finished) := by
            rintro rfl hreader
            exact hfirst.receive_ne_finished hwired (hbefore rfl) hreader
          have hnext : worker.isUnfed cancelled = true :=
            Worker.isUnfed_of_step hfirst.worker hworker hreads
              (fun after line => hfirst.receive_ne_line rest after line) hend
          intro other hother
          rcases List.mem_cons.mp hother with rfl | hother
          · refine ⟨hnext, fun channel hinbox frame hframe => ?_⟩
            obtain ⟨asked, hasked, rfl⟩ := Option.map_eq_some_iff.mp hinbox
            exact hfirst.inbox asked hasked frame
              ((post.worker.inputAfter_spec asked).2.subset hframe)
          · cases rest with
            | nil => cases hother
            | cons follower more =>
                rcases List.mem_cons.mp hother with rfl | hmore
                · obtain ⟨hfollower, hbox⟩ := hothers follower List.mem_cons_self
                  refine ⟨hfollower, fun channel hinbox frame hframe => ?_⟩
                  obtain ⟨fed, hfed, rfl⟩ := Option.map_eq_some_iff.mp hinbox
                  rcases Worker.mem_queue_outputAfter hfirst.worker hframe with hold | hmark
                  · exact hbox fed hfed frame hold
                  · exact hmark
                · exact hothers other (List.mem_cons_of_mem _ hmore)
      | succ position =>
          obtain ⟨more, hmore, rfl⟩ := stepAt_succ hstep
          have hwriter : cancelled = false → ∀ writer, some post.worker = some writer →
              writer.isRunning = true := by
            rintro rfl _ ⟨⟩
            exact Worker.isRunning_of_isUnfed hfirst.worker
          have hrest := ih hothers hwired.2.2 hwriter hmore
          intro other hother
          rcases List.mem_cons.mp hother with rfl | hother
          · exact hfirst
          · exact hrest other hother

end Post

end LineShell
