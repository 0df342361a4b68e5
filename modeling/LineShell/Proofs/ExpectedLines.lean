import LineShell.Proofs.LinkedRow
import LineShell.Proofs.StageLines
import LineShell.Proofs.WellWired

/-!
What every worker of a pipeline is yet to hand on, worked out from where the
workers and their queues stand. No step of any worker changes what is expected
of another, and a worker hands on what is expected of it, line by line, unless
it is given up by the next one or cancelled; then it hands on a beginning of
that. So what a pipeline writes does not depend on the order of its steps.
-/

namespace LineShell

/-- The text of a line. An end mark has none. -/
def Frame.text? : Frame → Option Text
  | .line text => some text
  | .finish => none

/-- The lines that are waiting in a channel. -/
def Channel.lines (channel : Channel) : List Text :=
  channel.queue.filterMap Frame.text?

/-- What a verb without a predecessor reads from the world when it begins. -/
def Verb.reads (verb : Verb) (world : World) : List Text :=
  match verb with
  | .cat path => world.fileLines path
  | .ls => world.listing
  | .pwd => [world.directory]
  | _ => []

namespace Filter

/-- What the filter makes of the lines that are left to come, where it has not yet
looked whether it wants any. -/
def runOn : Filter → List Text → List Text
  | filter, [] => filter.flush
  | filter, line :: rest => (filter.take line).2.toList ++ (filter.take line).1.run rest

private theorem run_of_not_full {filter : Filter} (h : filter.isFull = false) (lines : List Text) :
    filter.run lines = filter.runOn lines := by
  cases lines with
  | nil => rfl
  | cons line rest => simp [run, runOn, h]

private theorem run_of_full {filter : Filter} (h : filter.isFull = true) (lines : List Text) :
    filter.run lines = [] := by
  obtain rfl : filter = .first 0 := by
    cases filter with
    | first left => cases left with
      | zero => rfl
      | succ left => cases h
    | _ => cases h
  cases lines <;> rfl

theorem flush_of_closesInput {filter : Filter} (h : filter.closesInput = true) :
    filter.flush = [] := by
  cases filter with
  | first left => rfl
  | _ => cases h

end Filter

/-- What follows on a line that was sent, with these lines left to come. -/
def Continuation.yields (rest : List Text) : Continuation → List Text
  | .read filter => filter.run rest
  | .flush lines => lines

/-- What a reader hands on of the lines that are left to come. A filter that has
been cancelled hands nothing on. -/
def Reader.yields (cancelled : Bool) (rest : List Text) : Reader → List Text
  | .filter state => if cancelled then [] else state.runOn rest
  | .console | .file .. | .nowhere => rest

/-- What a worker is yet to hand on, with these lines left to come to it, and with
these in the source if it is one and has not begun. -/
def Worker.yields (cancelled : Bool) (source rest : List Text) : Worker → List Text
  | .running (.fresh verb) =>
    if verb.producesOutput then
      if cancelled then [] else if verb.acceptsInput then verb.passes rest else source
    else if verb.acceptsInput then rest else []
  | .running (.reading reader) | .running (.receiving reader) | .running (.waiting reader) =>
    reader.yields cancelled rest
  | .running (.writing line reader) => line :: reader.yields cancelled rest
  | .running (.emitting line next) => if cancelled then [] else line :: next.yields rest
  | .running (.sending line next) => line :: if cancelled then [] else next.yields rest
  | .running (.storing ..) | .running .closing | .running (.ended _) => []
  | .leaving _ | .gone _ => []

/-- The first text is a beginning of the second one, and is all of it as long as
nothing has been cancelled. -/
def Agrees (cancelled : Bool) (told expected : List Text) : Prop :=
  told <+: expected ∧ (cancelled = false → told = expected)

theorem Agrees.of_eq {cancelled : Bool} {told expected : List Text} (h : told = expected) :
    Agrees cancelled told expected :=
  ⟨h ▸ List.prefix_rfl, fun _ => h⟩

theorem Agrees.of_cancelled {told expected : List Text} (h : told <+: expected) :
    Agrees true told expected :=
  ⟨h, nofun⟩

theorem Agrees.append_left {cancelled : Bool} {told expected : List Text} (before : List Text)
    (h : Agrees cancelled told expected) :
    Agrees cancelled (before ++ told) (before ++ expected) :=
  ⟨(List.prefix_append_right_inj _).mpr h.1, fun hgoing => by rw [h.2 hgoing]⟩

theorem Agrees.trans {cancelled : Bool} {first second third : List Text}
    (h : Agrees cancelled first second) (hnext : Agrees cancelled second third) :
    Agrees cancelled first third :=
  ⟨h.1.trans hnext.1, fun hgoing => (h.2 hgoing).trans (hnext.2 hgoing)⟩

theorem Agrees.weaken {cancelled loose : Bool} {told expected : List Text}
    (h : Agrees cancelled told expected) (hloose : loose = false → cancelled = false) :
    Agrees loose told expected :=
  ⟨h.1, fun hgoing => h.2 (hloose hgoing)⟩

namespace Worker

/-- A worker that asks for no line hands on the same whatever may come. -/
theorem yields_of_not_reader {worker : Worker} (h : worker.isReader = false) (cancelled : Bool)
    (source first second : List Text) :
    worker.yields cancelled source first = worker.yields cancelled source second := by
  cases worker with
  | running body =>
      cases body with
      | fresh verb => simp [yields, show verb.acceptsInput = false from h]
      | emitting line next =>
          cases next with
          | read filter => cases h
          | flush lines => rfl
      | sending line next =>
          cases next with
          | read filter => cases h
          | flush lines => rfl
      | storing place held => rfl
      | closing => rfl
      | ended ending => rfl
      | _ => cases h
  | leaving exit => rfl
  | gone exit => rfl

private theorem yields_of_not_running {worker : Worker} (h : worker.isRunning = false)
    (cancelled : Bool) (source rest : List Text) : worker.yields cancelled source rest = [] := by
  cases worker with
  | running body => cases h
  | leaving exit => rfl
  | gone exit => rfl

/-- Once cancelled, a worker can only pass on more when more comes to it. -/
theorem yields_mono (worker : Worker) (source : List Text) {first second : List Text}
    (h : first <+: second) :
    worker.yields true source first <+: worker.yields true source second := by
  have hreader : ∀ reader : Reader, reader.yields true first <+: reader.yields true second := by
    intro reader
    cases reader with
    | filter filter => exact List.prefix_rfl
    | _ => exact h
  cases worker with
  | running body =>
      cases body with
      | fresh verb =>
          simp only [yields]
          split
          · exact List.prefix_rfl
          · split
            · exact h
            · exact List.prefix_rfl
      | reading reader => exact hreader reader
      | receiving reader => exact hreader reader
      | waiting reader => exact hreader reader
      | writing line reader => exact List.cons_prefix_cons.mpr ⟨rfl, hreader reader⟩
      | _ => exact List.prefix_rfl
  | leaving exit => exact List.prefix_rfl
  | gone exit => exact List.prefix_rfl

private theorem yields_agrees (worker : Worker) (source : List Text) {cancelled : Bool}
    {first second : List Text} (h : Agrees cancelled first second) :
    Agrees cancelled (worker.yields cancelled source first)
      (worker.yields cancelled source second) := by
  cases cancelled with
  | false => exact .of_eq (by rw [h.2 rfl])
  | true => exact .of_cancelled (worker.yields_mono source h.1)

/-- When the token fires, a worker goes on with a beginning of what was expected. -/
theorem yields_cancel (worker : Worker) (source rest : List Text) :
    worker.yields true source rest <+: worker.yields false source rest := by
  have hreader : ∀ reader : Reader, reader.yields true rest <+: reader.yields false rest := by
    intro reader
    cases reader with
    | filter filter => exact List.nil_prefix
    | _ => exact List.prefix_rfl
  cases worker with
  | running body =>
      cases body with
      | fresh verb =>
          simp only [yields]
          split
          · exact List.nil_prefix
          · exact List.prefix_rfl
      | reading reader => exact hreader reader
      | receiving reader => exact hreader reader
      | waiting reader => exact hreader reader
      | writing line reader => exact List.cons_prefix_cons.mpr ⟨rfl, hreader reader⟩
      | emitting line next => exact List.nil_prefix
      | sending line next => exact List.cons_prefix_cons.mpr ⟨rfl, List.nil_prefix⟩
      | _ => exact List.prefix_rfl
  | leaving exit => exact List.prefix_rfl
  | gone exit => exact List.prefix_rfl

end Worker

/-! What is expected of the bodies that a step can lead to. -/

namespace Body

variable (cancelled : Bool) (source rest : List Text)

private theorem yields_flushing (lines : List Text) :
    (Worker.running (flushing lines)).yields cancelled source rest =
      if cancelled then [] else lines := by
  cases lines <;> cases cancelled <;> rfl

private theorem yields_readOn (filter : Filter) :
    (Worker.running (readOn filter)).yields cancelled source rest =
      if cancelled then [] else filter.run rest := by
  unfold readOn
  split
  · rename_i hfull
    rw [Filter.run_of_full hfull]
    cases cancelled <;> rfl
  · rename_i hopen
    rw [Filter.run_of_not_full (by simpa using hopen)]
    rfl

private theorem yields_resume (next : Continuation) :
    (Worker.running (resume next)).yields cancelled source rest =
      if cancelled then [] else next.yields rest := by
  cases next with
  | read filter => exact yields_readOn cancelled source rest filter
  | flush lines => exact yields_flushing cancelled source rest lines

private theorem yields_conclude (reader : Reader) :
    (Worker.running (conclude reader)).yields cancelled source rest =
      reader.yields cancelled [] := by
  cases reader with
  | filter filter =>
      simp only [conclude]
      split
      · rename_i hcloses
        simp [Worker.yields, Reader.yields, Filter.runOn, Filter.flush_of_closesInput hcloses]
      · exact yields_flushing cancelled source rest filter.flush
  | _ => rfl

private theorem yields_handle (line : Text) (reader : Reader) :
    (Worker.running (handle line reader)).yields cancelled source rest =
      reader.yields cancelled (line :: rest) := by
  cases reader with
  | filter filter =>
      simp only [handle]
      split
      · rename_i next passed htake
        simp [Worker.yields, Reader.yields, Filter.runOn, Continuation.yields, htake]
      · rename_i next htake
        simp [yields_readOn, Reader.yields, Filter.runOn, htake]
  | _ => rfl

private theorem yields_writeLine (world : World) (line : Text) (reader : Reader) :
    (writeLine world line reader).1.yields cancelled rest = reader.yields cancelled rest := by
  cases reader <;> rfl

private theorem yields_start {world : World} {verb : Verb}
    (hsource : verb.isSource = true → source = verb.reads world) :
    (Worker.running (start world verb).1).yields cancelled source rest =
      (Worker.running (.fresh verb)).yields cancelled source rest := by
  have hfilter : ∀ {filter : Filter}, verb.filter? = some filter →
      (Worker.running (readOn filter)).yields cancelled source rest =
        if cancelled then [] else verb.passes rest := by
    intro filter hfilter
    rw [yields_readOn, Verb.run_of_filter? hfilter]
  cases verb with
  | cat path =>
      rw [hsource rfl]
      exact yields_flushing cancelled _ rest (world.fileLines path)
  | ls =>
      rw [hsource rfl]
      exact yields_flushing cancelled _ rest world.listing
  | pwd =>
      rw [hsource rfl]
      exact yields_flushing cancelled _ rest [world.directory]
  | cd change => rfl
  | exit => rfl
  | print => rfl
  | redirect path =>
      simp only [start]
      split <;> rfl
  | grep query => exact hfilter rfl
  | uniq => exact hfilter rfl
  | wc => exact hfilter rfl
  | head => exact hfilter rfl
  | tail => exact hfilter rfl

end Body

/-- The lines that are waiting in an inbox. -/
def Post.arriving (inbox : Option Channel) : List Text :=
  (inbox.map Channel.lines).getD []

namespace Worker

/-- The lines that the next step hands on. -/
def tells (wiring : Wiring) (worker : Worker) : List Text :=
  (worker.frameSent wiring).toList.filterMap Frame.text?

/-- A worker that takes a line finds it at the front of its queue. -/
theorem arriving_receive_line {wiring after : Wiring} {line : Text}
    (h : wiring.receive = (after, .line line)) :
    Post.arriving wiring.input = line :: Post.arriving after.input := by
  unfold Wiring.receive at h
  split at h
  · rename_i channel hinput
    split at h
    · simp only [Prod.mk.injEq] at h
      obtain ⟨rfl, h⟩ := h
      unfold Channel.takeLine at h ⊢
      simp only [hinput]
      split at h
      · cases h
      · rename_i hdone
        simp only [hdone]
        split at h
        · rename_i hqueue
          obtain rfl := Reception.line.inj h
          simp [Post.arriving, Channel.lines, hqueue, Frame.text?]
        · cases h
        · split at h <;> cases h
    · cases h
  · cases h

/-- A line is refused only where the receiver is gone. -/
theorem hasReceiver_of_refused {wiring after : Wiring} {line : Text}
    (h : wiring.transmit line = (after, false)) :
    wiring.output.all Channel.hasReceiver = false := by
  unfold Wiring.transmit at h
  split at h
  · rename_i channel houtput
    simp only [Channel.send, Prod.mk.injEq] at h
    split at h
    · cases h.2
    · rename_i hclosed
      simpa [houtput] using hclosed
  · cases congrArg Prod.snd h

/-- A step of a body hands on what was expected, as far as it goes on. -/
theorem yields_of_goes {body ahead : Body} {wiring after : Wiring} {world later : World}
    {source incoming : List Text} (h : body.Goes wiring world ahead after later)
    (hreads : (running body).isReader = true → wiring.isReadable = true)
    (hend : ∀ after, wiring.receive = (after, .finished) → (running body).isReader = true →
      Post.arriving wiring.input ++ incoming = [])
    (hsource : ∀ verb, body = .fresh verb → verb.isSource = true → source = verb.reads world) :
    Agrees (wiring.cancelled || !(wiring.output.all Channel.hasReceiver))
      ((running body).tells wiring ++
        (running ahead).yields wiring.cancelled source (Post.arriving after.input ++ incoming))
      ((running body).yields wiring.cancelled source
        (Post.arriving wiring.input ++ incoming)) := by
  cases h with
  | begin verb => exact .of_eq (Body.yields_start _ _ _ (hsource verb rfl))
  | shut reader hclosed =>
      rw [hreads rfl] at hclosed
      cases hclosed
  | stopReading reader _ hfired | stopWaiting reader hfired | stopEmitting line next hfired =>
      rw [hfired]
      exact .of_cancelled List.nil_prefix
  | look reader | wake reader | store place held | close => exact .of_eq rfl
  | take reader hreceived =>
      rw [arriving_receive_line hreceived, Body.yields_handle]
      exact .of_eq rfl
  | finish reader hreceived =>
      rw [hend _ hreceived rfl, Body.yields_conclude]
      exact .of_eq rfl
  | wait reader hreceived =>
      rw [Wiring.eq_of_waiting hreceived]
      exact .of_eq rfl
  | write line reader =>
      refine .of_eq ?_
      simp only [tells, frameSent, yields, Body.yields_writeLine]
      rfl
  | emit line next hgoing =>
      refine .of_eq ?_
      simp [tells, frameSent, yields, hgoing]
  | send line next htransmitted =>
      have hsend := transmit_eq wiring line
      rw [htransmitted] at hsend
      obtain rfl := hsend
      refine .of_eq ?_
      simp only [tells, frameSent, htransmitted, Body.yields_resume]
      rfl
  | refuse line next htransmitted =>
      rw [hasReceiver_of_refused htransmitted, Bool.not_false, Bool.or_true]
      refine .of_cancelled ?_
      simp [tells, frameSent, htransmitted, yields]

/-- A step hands on what was expected, as far as the worker goes on. -/
theorem yields_of_step {worker next : Worker} {wiring after : Wiring} {world later : World}
    {source incoming : List Text}
    (h : worker.step wiring world = some (next, after, later))
    (hreads : worker.isReader = true → wiring.isReadable = true)
    (hend : ∀ after, wiring.receive = (after, .finished) → worker.isReader = true →
      Post.arriving wiring.input ++ incoming = [])
    (hsource : ∀ verb, worker = .running (.fresh verb) → verb.isSource = true →
      source = verb.reads world) :
    Agrees (wiring.cancelled || !(wiring.output.all Channel.hasReceiver))
      (worker.tells wiring ++
        next.yields wiring.cancelled source (Post.arriving after.input ++ incoming))
      (worker.yields wiring.cancelled source (Post.arriving wiring.input ++ incoming)) := by
  cases goes_of_step h with
  | work hbody =>
      exact yields_of_goes hbody hreads hend fun verb hverb => hsource verb (by rw [hverb])
  | @mark ending => cases ending <;> exact .of_eq rfl
  | _ => exact .of_eq rfl

/-- What a link hands on arrives behind what is in the channel already. -/
theorem lines_outputAfter {worker : Worker} {wiring : Wiring} {channel : Channel}
    (hlink : worker.isLink = true) (houtput : wiring.output = some channel)
    (hopen : channel.hasReceiver = true) :
    (worker.outputAfter channel).lines = channel.lines ++ worker.tells wiring := by
  have hfinish : channel.finish.1.lines = channel.lines := by
    unfold Channel.finish
    split
    · rfl
    · simp [Channel.lines, Frame.text?]
  cases worker with
  | running body =>
      cases body with
      | sending line next =>
          simp [outputAfter, tells, frameSent, Wiring.transmit, houtput, Channel.send, hopen,
            Channel.lines, Frame.text?]
      | writing line reader => cases hlink
      | ended ending =>
          cases ending with
          | cancelled => exact (List.append_nil _).symm
          | _ => exact hfinish.trans (List.append_nil _).symm
      | _ => exact (List.append_nil _).symm
  | leaving exit => exact (List.append_nil _).symm
  | gone exit => exact (List.append_nil _).symm

end Worker

namespace Post

/-- What the worker at a position is yet to hand on, with these lines left to come
to the first worker, and with these in the source. -/
def expected (cancelled : Bool) (source : List Text) : List Text → List Post → Nat → List Text
  | _, [], _ => []
  | incoming, post :: _, 0 =>
    post.worker.yields cancelled source (arriving post.inbox ++ incoming)
  | incoming, post :: rest, position + 1 =>
    expected cancelled source
      (post.worker.yields cancelled source (arriving post.inbox ++ incoming)) rest position

/-- The lines that the worker at a position hands on in its next step. -/
def tellsAt (cancelled : Bool) (position : Nat) (posts : List Post) : List Text :=
  (frameSentAt cancelled position posts).toList.filterMap Frame.text?

private theorem expected_agrees {cancelled : Bool} {first second : List Text}
    (h : Agrees cancelled first second) (source : List Text) (posts : List Post)
    (position : Nat) :
    Agrees cancelled (expected cancelled source first posts position)
      (expected cancelled source second posts position) := by
  induction posts generalizing first second position with
  | nil => exact .of_eq rfl
  | cons post rest ih =>
      have hpost := post.worker.yields_agrees source (h.append_left (arriving post.inbox))
      cases position with
      | zero => exact hpost
      | succ position => exact ih hpost position

/-- For the workers behind one that has taken a step nothing has changed: what it
told them is in the queue now, and if nobody takes it, it does not matter. -/
theorem expected_withInbox {cancelled : Bool} {worker : Worker} {wiring : Wiring}
    {rest : List Post} {source incoming before : List Text}
    (hrest : WellWired (some worker) rest) (houtput : wiring.output = inboxOf rest)
    (h : Agrees (cancelled || !(wiring.output.all Channel.hasReceiver))
      (worker.tells wiring ++ incoming) before) (position : Nat) :
    Agrees cancelled
      (expected cancelled source incoming
        (withInbox ((inboxOf rest).map worker.outputAfter) rest) position)
      (expected cancelled source before rest position) := by
  cases rest with
  | nil => exact .of_eq rfl
  | cons next more =>
      obtain ⟨⟨channel, hinbox, hfed⟩, hliveInbox, -⟩ := hrest
      have hchannel : wiring.output = some channel := houtput.trans hinbox
      have hafter : (inboxOf (next :: more)).map worker.outputAfter =
          some (worker.outputAfter channel) := by rw [inboxOf, hinbox]; rfl
      have hnext : Agrees cancelled
          (next.worker.yields cancelled source
            ((worker.outputAfter channel).lines ++ incoming))
          (next.worker.yields cancelled source (channel.lines ++ before)) := by
        by_cases hopen : channel.hasReceiver = true
        · rw [Worker.lines_outputAfter hfed.link hchannel hopen, List.append_assoc]
          simp only [hchannel, Option.all_some, hopen, Bool.not_true, Bool.or_false] at h
          exact next.worker.yields_agrees source (h.append_left _)
        · have hreader : next.worker.isReader = false := by
            rw [← Bool.not_eq_true]
            intro hreader
            obtain ⟨asked, hasked, hlive⟩ := hliveInbox hreader
            obtain rfl : channel = asked := Option.some.inj (hinbox.symm.trans hasked)
            exact hopen (Bool.and_eq_true_iff.mp hlive).1
          exact .of_eq (Worker.yields_of_not_reader hreader _ _ _ _)
      rw [hafter]
      cases position with
      | zero =>
          simp only [withInbox, expected, arriving, hinbox]
          exact hnext
      | succ position =>
          simp only [withInbox, expected, arriving, hinbox]
          exact expected_agrees hnext source more position

/-- Where the end of the lines is noticed, nothing is left to come. -/
theorem WellWired.nothing_arrives {before : Option Worker} {post : Post} {rest : List Post}
    {incoming : List Text} {cancelled : Bool} {after : Wiring}
    (h : WellWired before (post :: rest))
    (hincoming : ∀ writer, before = some writer → writer.isRunning = false → incoming = [])
    (hreceive : (post.wiring cancelled rest).receive = (after, .finished))
    (hreader : post.worker.isReader = true) :
    arriving post.inbox ++ incoming = [] := by
  obtain ⟨hjoined, hliveInbox, -⟩ := h
  obtain ⟨channel, hinbox, hlive⟩ := hliveInbox hreader
  cases before with
  | none => rw [show post.inbox = none from hjoined] at hinbox; cases hinbox
  | some writer =>
      obtain ⟨fed, hfedbox, hfed⟩ := hjoined
      obtain rfl : fed = channel := Option.some.inj (hfedbox.symm.trans hinbox)
      obtain ⟨hopen, hdone⟩ : fed.hasReceiver = true ∧ fed.done = false := by
        simpa [Channel.isLive] using hlive
      have htake : fed.takeLine.2 = .finished := by
        have hreception := congrArg Prod.snd hreceive
        simpa [wiring, Wiring.receive, hinbox, hopen] using hreception
      simp only [Channel.takeLine, hdone, Bool.false_eq_true, if_false] at htake
      simp only [arriving, hinbox, Option.map_some, Option.getD_some, Channel.lines]
      split at htake
      · cases htake
      · rename_i tail hqueue
        have htail : tail = [] := by
          by_contra hne
          apply hfed.marked
          rw [hqueue, List.dropLast_cons_of_ne_nil hne]
          exact List.mem_cons_self
        have hsilent : writer.isRunning = false := by
          rw [← Bool.not_eq_true]
          intro hrunning
          apply hfed.unmarked hrunning
          rw [hqueue]
          exact List.mem_cons_self
        rw [hqueue, htail, hincoming writer rfl hsilent]
        rfl
      · rename_i hqueue
        split at htake
        · cases htake
        · rename_i hsender
          obtain ⟨exit, rfl⟩ := hfed.sender.mp (by simpa using hsender)
          rw [hqueue, hincoming _ rfl rfl]
          rfl

/-- A step hands on what was expected of its worker, all of it where nobody is
there to give the worker up, and changes nothing that is expected of the
others. -/
theorem expected_of_stepAt {cancelled : Bool} {position : Nat} {before : Option Worker}
    {posts after : List Post} {world later : World} {source incoming : List Text}
    (h : stepAt cancelled position posts world = some (after, later))
    (hwired : WellWired before posts)
    (hincoming : ∀ writer, before = some writer → writer.isRunning = false → incoming = [])
    (hsource : ∀ post verb, posts[position]? = some post → post.worker = .running (.fresh verb) →
      verb.isSource = true → source = verb.reads world) :
    Agrees (cancelled || decide (position + 1 < posts.length))
        (tellsAt cancelled position posts ++ expected cancelled source incoming after position)
        (expected cancelled source incoming posts position) ∧
      ∀ other, other ≠ position → Agrees cancelled
        (expected cancelled source incoming after other)
        (expected cancelled source incoming posts other) := by
  induction posts generalizing before position after incoming with
  | nil => simp [stepAt] at h
  | cons post rest ih =>
      cases position with
      | zero =>
          obtain ⟨worker, wiring', hstep, rfl⟩ := stepAt_zero h
          have hreads : post.worker.isReader = true →
              (post.wiring cancelled rest).isReadable = true := by
            intro hreader
            obtain ⟨channel, hinbox, hlive⟩ := hwired.2.1 hreader
            simp only [Wiring.isReadable, wiring, hinbox, Option.any_some]
            exact (Bool.and_eq_true_iff.mp hlive).1
          have hend : ∀ after, (post.wiring cancelled rest).receive = (after, .finished) →
              post.worker.isReader = true → arriving post.inbox ++ incoming = [] :=
            fun after hreceive => hwired.nothing_arrives hincoming hreceive
          have hfirst := Worker.yields_of_step hstep hreads hend
            (fun verb hverb => hsource post verb rfl hverb)
          rw [congrArg Wiring.input (Worker.wiring_of_step hstep)] at hfirst
          constructor
          · cases rest with
            | nil =>
                have hkept : ((post.wiring cancelled []).cancelled ||
                    !((post.wiring cancelled []).output.all Channel.hasReceiver)) = cancelled :=
                  Bool.or_false cancelled
                rw [hkept] at hfirst
                rw [show decide (0 + 1 < [post].length) = false from rfl, Bool.or_false]
                exact hfirst
            | cons next more =>
                rw [show decide (0 + 1 < (post :: next :: more).length) = true by simp,
                  Bool.or_true]
                exact .of_cancelled hfirst.1
          · intro other hother
            cases other with
            | zero => exact absurd rfl hother
            | succ other => exact expected_withInbox hwired.2.2 rfl hfirst other
      | succ position =>
          obtain ⟨more, hmore, rfl⟩ := stepAt_succ h
          have hsilent : ∀ writer, some post.worker = some writer → writer.isRunning = false →
              post.worker.yields cancelled source (arriving post.inbox ++ incoming) = [] := by
            rintro _ ⟨⟩ hsilent
            exact Worker.yields_of_not_running hsilent _ _ _
          have hrest := ih hmore hwired.2.2 hsilent
            (fun other verb hother => hsource other verb (by simpa using hother))
          constructor
          · have hlast : decide (position + 1 + 1 < (post :: rest).length) =
                decide (position + 1 < rest.length) := by simp
            rw [hlast]
            exact hrest.1
          · intro other hother
            cases other with
            | zero => exact .of_eq rfl
            | succ other => exact hrest.2 other (by simpa using hother)

/-- When the token fires, every worker goes on with a beginning of what was
expected. -/
theorem expected_cancel {first second : List Text} (h : first <+: second) (source : List Text)
    (posts : List Post) (position : Nat) :
    expected true source first posts position <+: expected false source second posts position := by
  induction posts generalizing first second position with
  | nil => exact List.prefix_rfl
  | cons post rest ih =>
      have hmore : arriving post.inbox ++ first <+: arriving post.inbox ++ second :=
        (List.prefix_append_right_inj _).mpr h
      have hpost := (post.worker.yields_mono source hmore).trans
        (post.worker.yields_cancel source _)
      cases position with
      | zero => exact hpost
      | succ position => exact ih hpost position

/-- When all workers have ended, nothing more is expected. -/
theorem expected_of_ended {cancelled : Bool} {source incoming : List Text} {posts : List Post}
    (h : ∀ post ∈ posts, post.HasEnded) (position : Nat) :
    expected cancelled source incoming posts position = [] := by
  induction posts generalizing incoming position with
  | nil => rfl
  | cons post rest ih =>
      cases position with
      | zero =>
          obtain ⟨exit, hexit⟩ := h post List.mem_cons_self
          rw [expected, hexit]
          rfl
      | succ position =>
          exact ih (fun other hother => h other (List.mem_cons_of_mem _ hother)) position

end Post

end LineShell
