import Mathlib.Data.List.Infix
import LineShell.Channel

/-!
All that can go through a channel. A history is any row of uses of the two ends of a
channel, from its making on; each end is used until it is dropped, and no line is sent
behind the end mark. However the uses are mixed, the frames that the receiver has taken
are the first of those that were accepted, and the others wait in the queue. What any use
answers is told by what was used and answered before it.
-/

namespace LineShell

/-- What can be done at the ends of a channel. -/
inductive ChannelUse where
  | send (text : Text)
  /-- Marks the end of the lines. -/
  | finish
  /-- Asks whether the end has been marked. -/
  | askEnded
  | dropSender
  | takeLine
  | takeFrame
  /-- Asks whether the receiver has been told that there are no more lines. -/
  | askDone
  | dropReceiver
deriving DecidableEq, Repr

/-- What is answered. -/
inductive ChannelAnswer where
  | told (answer : Bool)
  | line (reception : Reception)
  | frame (reception : FrameReception)
  | nothing
deriving DecidableEq, Repr

/-- A use in a history, with the channel before it and after it. -/
structure Exchange where
  before : Channel
  use : ChannelUse
  answer : ChannelAnswer
  after : Channel

namespace Channel

/-- Whether a use is possible: its end is still there, and no line is sent behind the end
mark. -/
def admits (channel : Channel) : ChannelUse → Bool
  | .send _ => channel.hasSender && !channel.ended
  | .finish | .askEnded | .dropSender => channel.hasSender
  | .takeLine | .takeFrame | .askDone | .dropReceiver => channel.hasReceiver

/-- What a use makes of a channel and what it answers. -/
def respond (channel : Channel) : ChannelUse → Channel × ChannelAnswer
  | .send text => ((channel.send text).1, .told (channel.send text).2)
  | .finish => (channel.finish.1, .told channel.finish.2)
  | .askEnded => (channel, .told channel.ended)
  | .dropSender => (channel.dropSender, .nothing)
  | .takeLine => (channel.takeLine.1, .line channel.takeLine.2)
  | .takeFrame => (channel.takeFrame.1, .frame channel.takeFrame.2)
  | .askDone => (channel, .told channel.done)
  | .dropReceiver => (channel.dropReceiver, .nothing)

/-- The histories of a channel. -/
inductive History : List Exchange → Channel → Prop
  | start : History [] {}
  | exchange {exchanges : List Exchange} {channel after : Channel} {use : ChannelUse}
      {answer : ChannelAnswer} (before : History exchanges channel)
      (possible : channel.admits use = true) (happens : channel.respond use = (after, answer)) :
      History (exchanges ++ [{ before := channel, use, answer, after }]) after

end Channel

namespace Exchange

/-- The line that was sent and accepted. -/
def sent (exchange : Exchange) : List Text :=
  match exchange.use, exchange.answer with
  | .send text, .told true => [text]
  | _, _ => []

/-- Whether the end has been marked for the first time, and there was a receiver to see
the mark. -/
def marks (exchange : Exchange) : Bool :=
  exchange.use = .finish && exchange.answer = .told true && exchange.before.hasReceiver

/-- The frame that was accepted. -/
def accepted (exchange : Exchange) : List Frame :=
  exchange.sent.map .line ++ if exchange.marks then [.finish] else []

/-- The frame that has left the front of the queue, and the receiver has taken it. -/
def taken (exchange : Exchange) : List Frame :=
  match exchange.use with
  | .takeLine | .takeFrame =>
    exchange.before.queue.take (exchange.before.queue.length - exchange.after.queue.length)
  | _ => []

/-- What each use does and answers, told by the queue of a channel and by its ends. -/
inductive Does (before : Channel) : ChannelUse → ChannelAnswer → Channel → Prop
  | accept {text : Text} (there : before.hasReceiver = true) (sender : before.hasSender = true)
      (unmarked : before.ended = false) :
      Does before (.send text) (.told true)
        { before with queue := before.queue ++ [.line text] }
  | refuse {text : Text} (gone : before.hasReceiver = false) (sender : before.hasSender = true)
      (unmarked : before.ended = false) : Does before (.send text) (.told false) before
  | mark (there : before.hasReceiver = true) (sender : before.hasSender = true)
      (unmarked : before.ended = false) :
      Does before .finish (.told true)
        { before with queue := before.queue ++ [.finish], ended := true }
  | markUnseen (gone : before.hasReceiver = false) (sender : before.hasSender = true)
      (unmarked : before.ended = false) :
      Does before .finish (.told true) { before with ended := true }
  | markAgain (sender : before.hasSender = true) (marked : before.ended = true) :
      Does before .finish (.told false) before
  | tellEnded (sender : before.hasSender = true) :
      Does before .askEnded (.told before.ended) before
  | dropSender (sender : before.hasSender = true) :
      Does before .dropSender .nothing { before with hasSender := false }
  | line {text : Text} {rest : List Frame} (there : before.hasReceiver = true)
      (going : before.done = false) (waits : before.queue = .line text :: rest) :
      Does before .takeLine (.line (.line text)) { before with queue := rest }
  | lastLine {rest : List Frame} (there : before.hasReceiver = true) (going : before.done = false)
      (waits : before.queue = .finish :: rest) :
      Does before .takeLine (.line .finished) { before with queue := rest, done := true }
  | noSender (there : before.hasReceiver = true) (going : before.done = false)
      (empty : before.queue = []) (gone : before.hasSender = false) :
      Does before .takeLine (.line .finished) { before with done := true }
  | noLine (there : before.hasReceiver = true) (going : before.done = false)
      (empty : before.queue = []) (sender : before.hasSender = true) :
      Does before .takeLine (.line .waiting) before
  | lastAgain (there : before.hasReceiver = true) (told : before.done = true) :
      Does before .takeLine (.line .finished) before
  | frame {frame : Frame} {rest : List Frame} (there : before.hasReceiver = true)
      (waits : before.queue = frame :: rest) :
      Does before .takeFrame (.frame (.frame frame)) { before with queue := rest }
  | noFrame (there : before.hasReceiver = true) (empty : before.queue = []) :
      Does before .takeFrame (.frame (if before.hasSender then .waiting else .closed)) before
  | tellDone (there : before.hasReceiver = true) : Does before .askDone (.told before.done) before
  | dropReceiver (there : before.hasReceiver = true) :
      Does before .dropReceiver .nothing { before with hasReceiver := false, queue := [] }

variable {before after : Channel} {use : ChannelUse} {answer : ChannelAnswer}

theorem does_of_respond (hpossible : before.admits use = true)
    (h : before.respond use = (after, answer)) : Does before use answer after := by
  obtain ⟨rfl, rfl⟩ := Prod.mk.inj h
  cases use with
  | send text =>
      obtain ⟨hsender, hunmarked⟩ : before.hasSender = true ∧ before.ended = false := by
        simpa [Channel.admits] using hpossible
      by_cases hthere : before.hasReceiver = true
      · simp only [Channel.send, if_pos hthere]
        exact .accept hthere hsender hunmarked
      · simp only [Channel.send, if_neg hthere]
        exact .refuse (by simpa using hthere) hsender hunmarked
  | finish =>
      by_cases hmarked : before.ended = true
      · simp only [Channel.finish, if_pos hmarked]
        exact .markAgain hpossible hmarked
      · have hunmarked : before.ended = false := by simpa using hmarked
        by_cases hthere : before.hasReceiver = true
        · simp only [Channel.finish, if_neg hmarked, if_pos hthere]
          exact .mark hthere hpossible hunmarked
        · simp only [Channel.finish, if_neg hmarked, if_neg hthere]
          exact .markUnseen (by simpa using hthere) hpossible hunmarked
  | takeLine =>
      simp only [Channel.takeLine]
      split
      · exact .lastAgain hpossible (by assumption)
      · rename_i hgoing
        rw [Bool.not_eq_true] at hgoing
        split
        · exact .line hpossible hgoing (by assumption)
        · exact .lastLine hpossible hgoing (by assumption)
        · rename_i hempty
          split
          · exact .noLine hpossible hgoing hempty (by assumption)
          · rename_i hgone
            exact .noSender hpossible hgoing hempty (by simpa using hgone)
  | takeFrame =>
      simp only [Channel.takeFrame]
      split
      · exact .frame hpossible (by assumption)
      · exact .noFrame hpossible (by assumption)
  | askEnded => exact .tellEnded hpossible
  | dropSender => exact .dropSender hpossible
  | askDone => exact .tellDone hpossible
  | dropReceiver => exact .dropReceiver hpossible

/-! What a use changes. -/

theorem Does.hasSender (h : Does before use answer after) :
    after.hasSender = (before.hasSender && .dropSender ≠ use) := by
  cases h <;> simp

private theorem Does.hasReceiver (h : Does before use answer after) :
    after.hasReceiver = (before.hasReceiver && .dropReceiver ≠ use) := by
  cases h <;> simp

private theorem Does.there (h : Does before use answer after) (hthere : after.hasReceiver = true) :
    before.hasReceiver = true := by
  rw [h.hasReceiver] at hthere
  exact (Bool.and_eq_true_iff.mp hthere).1

private theorem Does.ended (h : Does before use answer after) :
    after.ended = (before.ended || .finish = use) := by
  cases h <;> simp_all

private theorem Does.done (h : Does before use answer after) :
    after.done = (before.done || .line .finished = answer) := by
  cases h <;> simp_all

/-- What was in the queue or is accepted has been taken or is in the queue. -/
theorem Does.balance (h : Does before use answer after) (hthere : after.hasReceiver = true) :
    before.queue ++ accepted { before, use, answer, after } =
      taken { before, use, answer, after } ++ after.queue := by
  cases h <;> simp_all [accepted, taken, sent, marks]

/-- Without a receiver nothing is accepted or taken. -/
theorem Does.unheard (h : Does before use answer after) (hgone : after.hasReceiver = false) :
    accepted { before, use, answer, after } = [] ∧ taken { before, use, answer, after } = [] := by
  cases h <;> simp_all [accepted, taken, sent, marks]

/-- Nothing can be sent behind the end mark. -/
theorem Does.sent_of_ended (h : Does before use answer after) (hmarked : before.ended = true) :
    sent { before, use, answer, after } = [] ∧ marks { before, use, answer, after } = false := by
  cases h <;> simp_all [sent, marks]

end Exchange

namespace Channel

/-- What a history tells of the channel that it ends in. -/
structure Account (exchanges : List Exchange) (channel : Channel) : Prop where
  sender : channel.hasSender = true ↔ .dropSender ∉ exchanges.map Exchange.use
  receiver : channel.hasReceiver = true ↔ .dropReceiver ∉ exchanges.map Exchange.use
  marked : channel.ended = true ↔ .finish ∈ exchanges.map Exchange.use
  told : channel.done = true ↔ .line .finished ∈ exchanges.map Exchange.answer
  order : exchanges.flatMap Exchange.taken <+: exchanges.flatMap Exchange.accepted
  kept : channel.hasReceiver = true →
    exchanges.flatMap Exchange.accepted = exchanges.flatMap Exchange.taken ++ channel.queue
  lastly : exchanges.flatMap Exchange.accepted =
    (exchanges.flatMap Exchange.sent).map .line ++
      if exchanges.any Exchange.marks then [.finish] else []
  spent : channel.done = true →
    channel.queue = [] ∧ (channel.ended = true ∨ channel.hasSender = false)

end Channel

namespace Exchange

variable {exchanges : List Exchange} {channel : Channel}

private theorem mem_use_of_marks (h : exchanges.any marks = true) :
    .finish ∈ exchanges.map use := by
  obtain ⟨exchange, hmem, hmarks⟩ := List.any_eq_true.mp h
  simp only [marks, Bool.and_eq_true, decide_eq_true_eq] at hmarks
  exact List.mem_map.mpr ⟨exchange, hmem, hmarks.1.1⟩

/-- Nothing comes behind an end mark. -/
theorem eq_nil_of_marked {lines : List Text} {marked : Bool} {front rest : List Frame}
    (h : front ++ .finish :: rest = lines.map .line ++ if marked then [.finish] else []) :
    marked = true ∧ rest = [] := by
  have hnone {frames : List Frame} (hsplit : front ++ .finish :: frames = lines.map .line) :
      False := by
    have hmem : Frame.finish ∈ lines.map .line := hsplit ▸ by simp
    simp at hmem
  cases marked with
  | false => exact (hnone (by simpa using h)).elim
  | true =>
      refine ⟨rfl, ?_⟩
      cases rest using List.reverseRecOn with
      | nil => rfl
      | append_singleton frames last =>
          rw [← List.cons_append, ← List.append_assoc, if_pos rfl] at h
          exact (hnone (List.append_inj_left' h rfl)).elim

end Exchange

namespace Channel

private theorem Account.exchange {exchanges : List Exchange} {channel after : Channel}
    {use : ChannelUse}
    {answer : ChannelAnswer} (h : Account exchanges channel)
    (hdoes : Exchange.Does channel use answer after) :
    Account (exchanges ++ [{ before := channel, use, answer, after }]) after where
  sender := by
    rw [hdoes.hasSender, Bool.and_eq_true, h.sender]
    simp
  receiver := by
    rw [hdoes.hasReceiver, Bool.and_eq_true, h.receiver]
    simp
  marked := by
    rw [hdoes.ended, Bool.or_eq_true, h.marked]
    simp
  told := by
    rw [hdoes.done, Bool.or_eq_true, h.told]
    simp
  order := by
    simp only [List.flatMap_append, List.flatMap_singleton]
    cases hthere : after.hasReceiver with
    | true =>
        have hbefore := hdoes.there hthere
        rw [h.kept hbefore, List.append_assoc, hdoes.balance hthere]
        simp
    | false =>
        obtain ⟨haccepted, htaken⟩ := hdoes.unheard hthere
        rw [haccepted, htaken, List.append_nil, List.append_nil]
        exact h.order
  kept := by
    intro hthere
    have hbefore := hdoes.there hthere
    simp only [List.flatMap_append, List.flatMap_singleton]
    rw [h.kept hbefore, List.append_assoc, hdoes.balance hthere, List.append_assoc]
  lastly := by
    simp only [List.flatMap_append, List.flatMap_singleton, List.any_append, List.any_cons,
      List.any_nil, Bool.or_false, List.map_append]
    rw [h.lastly, Exchange.accepted]
    cases hmarked : channel.ended with
    | true =>
        obtain ⟨hsent, hmarks⟩ := hdoes.sent_of_ended hmarked
        simp [hsent, hmarks]
    | false =>
        have hnone : exchanges.any Exchange.marks = false := by
          rw [Bool.eq_false_iff]
          intro hany
          rw [h.marked.mpr (Exchange.mem_use_of_marks hany)] at hmarked
          cases hmarked
        simp [hnone]
  spent := by
    intro hdone
    cases hdoes with
    | lastLine hthere _ hwaits =>
        obtain ⟨hmarks, hrest⟩ :=
          Exchange.eq_nil_of_marked (hwaits ▸ (h.kept hthere).symm.trans h.lastly)
        exact ⟨hrest, .inl (h.marked.mpr (Exchange.mem_use_of_marks hmarks))⟩
    | noSender _ _ hempty hgone => exact ⟨hempty, .inr hgone⟩
    | accept _ hsender hunmarked | mark _ hsender hunmarked | markUnseen _ hsender hunmarked =>
        have := (h.spent hdone).2
        simp [hsender, hunmarked] at this
    | dropSender => exact ⟨(h.spent hdone).1, .inr rfl⟩
    | dropReceiver => exact ⟨rfl, (h.spent hdone).2⟩
    | line _ hgoing =>
        rw [show channel.done = true from hdone] at hgoing
        cases hgoing
    | frame _ hwaits =>
        rw [(h.spent hdone).1] at hwaits
        cases hwaits
    | _ => exact h.spent hdone

theorem History.account {exchanges : List Exchange} {channel : Channel}
    (h : History exchanges channel) : Account exchanges channel := by
  induction h with
  | start => exact ⟨by simp, by simp, by simp, by simp, by simp, fun _ => rfl, rfl, nofun⟩
  | exchange _ hpossible happens ih =>
      exact ih.exchange (Exchange.does_of_respond hpossible happens)

/-- A row with one more thing behind it is cut at this thing, or at one of the row. -/
theorem last_or_earlier {α : Type} {row earlier later : List α} {last now : α}
    (hcut : row ++ [last] = earlier ++ now :: later) :
    (row = earlier ∧ last = now) ∨ ∃ front, row = earlier ++ now :: front := by
  cases later using List.reverseRecOn with
  | nil =>
      obtain ⟨hrow, hlast⟩ := List.append_inj' hcut rfl
      exact .inl ⟨hrow, (List.cons.inj hlast).1⟩
  | append_singleton front final =>
      rw [← List.cons_append, ← List.append_assoc] at hcut
      exact .inr ⟨front, List.append_inj_left' hcut rfl⟩

/-- Every exchange of a history is the next one of what came before it. -/
theorem History.earlier {exchanges earlier later : List Exchange} {exchange : Exchange}
    {channel : Channel} (h : History exchanges channel)
    (hsplit : exchanges = earlier ++ exchange :: later) :
    History earlier exchange.before ∧
      Exchange.Does exchange.before exchange.use exchange.answer exchange.after := by
  induction h generalizing later with
  | start => simp at hsplit
  | exchange before hpossible happens ih =>
      rcases last_or_earlier hsplit with ⟨rfl, rfl⟩ | ⟨front, hfront⟩
      · exact ⟨before, Exchange.does_of_respond hpossible happens⟩
      · exact ih hfront

end Channel

namespace Exchange

/-- The frames that were accepted and have not been taken. -/
def inQueue (exchanges : List Exchange) : List Frame :=
  (exchanges.flatMap accepted).drop (exchanges.flatMap taken).length

/-- What a receiver of lines is answered after a history: nothing but the end once it has
been told of it, and before that the first line that waits. -/
def nextLine (exchanges : List Exchange) : Reception :=
  if .line .finished ∈ exchanges.map answer then .finished
  else
    match inQueue exchanges with
    | .line text :: _ => .line text
    | .finish :: _ => .finished
    | [] => if .dropSender ∈ exchanges.map use then .finished else .waiting

/-- What a receiver of frames is answered after a history. -/
def nextFrame (exchanges : List Exchange) : FrameReception :=
  match inQueue exchanges with
  | frame :: _ => .frame frame
  | [] => if .dropSender ∈ exchanges.map use then .closed else .waiting

/-- What an exchange answers and takes, told by those before it. -/
structure Lawful (earlier : List Exchange) (now : Exchange) : Prop where
  /-- A line is refused exactly when the receiver is gone. -/
  send : ∀ text, now.use = .send text →
    now.answer = .told (.dropReceiver ∉ earlier.map use)
  /-- The end is marked once, whether there is a receiver or not. -/
  finish : now.use = .finish → now.answer = .told (.finish ∉ earlier.map use)
  askEnded : now.use = .askEnded → now.answer = .told (.finish ∈ earlier.map use)
  takeLine : now.use = .takeLine → now.answer = .line (nextLine earlier) ∧
    now.taken = if .line .finished ∈ earlier.map answer then [] else (inQueue earlier).take 1
  takeFrame : now.use = .takeFrame → now.answer = .frame (nextFrame earlier) ∧
    now.taken = (inQueue earlier).take 1 ∧ now.after.done = now.before.done
  askDone : now.use = .askDone → now.answer = .told (.line .finished ∈ earlier.map answer)
  /-- A receiver waits for a line exactly when it has not been told of the end, has taken
  all that was accepted, and there is a sender. -/
  waits : now.use = .takeLine → (now.answer = .line .waiting ↔
    .line .finished ∉ earlier.map answer ∧
      earlier.flatMap taken = earlier.flatMap accepted ∧ .dropSender ∉ earlier.map use)
  /-- A receiver that is told of the end has taken all that was accepted. -/
  all : now.answer = .line .finished ∨ now.answer = .frame .closed →
    (earlier ++ [now]).flatMap taken = (earlier ++ [now]).flatMap accepted
  /-- Only a receiver of lines is told of the end. -/
  told : now.after.done = true ↔ .line .finished ∈ (earlier ++ [now]).map answer

end Exchange

namespace Channel

variable {exchanges : List Exchange} {channel : Channel}

private theorem Account.inQueue_eq (h : Account exchanges channel)
    (hthere : channel.hasReceiver = true) :
    Exchange.inQueue exchanges = channel.queue := by
  rw [Exchange.inQueue, h.kept hthere, List.drop_left]

/-- All that was accepted has been taken exactly when the queue is empty. -/
theorem Account.taken_eq_iff (h : Account exchanges channel) (hthere : channel.hasReceiver = true) :
    exchanges.flatMap Exchange.taken = exchanges.flatMap Exchange.accepted ↔
      channel.queue = [] := by
  rw [h.kept hthere, List.self_eq_append_right]

private theorem Account.not_told (h : Account exchanges channel) (hgoing : channel.done = false) :
    .line .finished ∉ exchanges.map Exchange.answer := by
  rw [← h.told, hgoing]
  exact Bool.false_ne_true

/-- What a receiver gets from an empty queue depends on the sender. -/
theorem Account.if_gone {α : Type} (h : Account exchanges channel) (gone there : α) :
    (if .dropSender ∈ exchanges.map Exchange.use then gone else there) =
      if channel.hasSender then there else gone := by
  by_cases hsender : channel.hasSender = true
  · rw [if_neg (h.sender.mp hsender), if_pos hsender]
  · rw [if_pos (not_not.mp (mt h.sender.mpr hsender)), if_neg hsender]

/-- A receiver of lines gets what waits for it, and takes no more than that. -/
theorem Account.takeLine {after : Channel} {answer : ChannelAnswer}
    (h : Account exchanges channel) (hdoes : Exchange.Does channel .takeLine answer after) :
    answer = .line (Exchange.nextLine exchanges) ∧
      Exchange.taken { before := channel, use := .takeLine, answer, after } =
        if .line .finished ∈ exchanges.map Exchange.answer then []
        else (Exchange.inQueue exchanges).take 1 := by
  cases hdoes with
  | line hthere hgoing hwaits | lastLine hthere hgoing hwaits =>
      have hgoing := h.not_told hgoing
      rw [Exchange.nextLine, if_neg hgoing, if_neg hgoing, h.inQueue_eq hthere, hwaits]
      exact ⟨rfl, by simp [Exchange.taken, hwaits]⟩
  | noSender hthere hgoing hempty hsender | noLine hthere hgoing hempty hsender =>
      have hgoing := h.not_told hgoing
      rw [Exchange.nextLine, if_neg hgoing, if_neg hgoing, h.inQueue_eq hthere, hempty]
      exact ⟨by simp only [h.if_gone, hsender]; rfl, by simp [Exchange.taken, hempty]⟩
  | lastAgain hthere hdone =>
      have hdone := h.told.mp hdone
      rw [Exchange.nextLine, if_pos hdone, if_pos hdone]
      exact ⟨rfl, by simp [Exchange.taken]⟩

private theorem Account.takeFrame {after : Channel} {answer : ChannelAnswer}
    (h : Account exchanges channel) (hdoes : Exchange.Does channel .takeFrame answer after) :
    answer = .frame (Exchange.nextFrame exchanges) ∧
      Exchange.taken { before := channel, use := .takeFrame, answer, after } =
        (Exchange.inQueue exchanges).take 1 ∧ after.done = channel.done := by
  cases hdoes with
  | frame hthere hwaits =>
      rw [Exchange.nextFrame, h.inQueue_eq hthere, hwaits]
      exact ⟨rfl, by simp [Exchange.taken, hwaits], rfl⟩
  | noFrame hthere hempty =>
      rw [Exchange.nextFrame, h.inQueue_eq hthere, hempty]
      exact ⟨by simp only [h.if_gone], by simp [Exchange.taken, hempty], rfl⟩

private theorem Account.waits_iff {after : Channel} {answer : ChannelAnswer}
    (h : Account exchanges channel) (hdoes : Exchange.Does channel .takeLine answer after) :
    answer = .line .waiting ↔ .line .finished ∉ exchanges.map Exchange.answer ∧
      exchanges.flatMap Exchange.taken = exchanges.flatMap Exchange.accepted ∧
        .dropSender ∉ exchanges.map Exchange.use := by
  rw [← h.told, ← h.sender]
  cases hdoes with
  | line hthere hgoing hwaits | lastLine hthere hgoing hwaits =>
      simp [h.taken_eq_iff hthere, hwaits]
  | noSender hthere hgoing hempty hsender | noLine hthere hgoing hempty hsender =>
      simp [h.taken_eq_iff hthere, hgoing, hempty, hsender]
  | lastAgain hthere hdone => simp [hdone]

/-- Whoever is told of the end has taken all that was accepted. -/
theorem Account.all {after : Channel} {use : ChannelUse} {answer : ChannelAnswer}
    (h : Account exchanges channel) (hdoes : Exchange.Does channel use answer after)
    (hend : answer = .line .finished ∨ answer = .frame .closed) :
    after.hasReceiver = true ∧ after.queue = [] := by
  rcases hend with rfl | rfl
  · have hdone : after.done = true := by simp [hdoes.done]
    refine ⟨?_, ((h.exchange hdoes).spent hdone).1⟩
    cases hdoes <;> assumption
  · generalize hanswer : ChannelAnswer.frame .closed = answer at hdoes
    cases hdoes with
    | noFrame hthere hempty => exact ⟨hthere, hempty⟩
    | _ => cases hanswer

private theorem Account.lawful {after : Channel} {use : ChannelUse} {answer : ChannelAnswer}
    (h : Account exchanges channel) (hdoes : Exchange.Does channel use answer after) :
    Exchange.Lawful exchanges { before := channel, use, answer, after } where
  send := by
    rintro text rfl
    by_cases hthere : channel.hasReceiver = true
    · have hheard := h.receiver.mp hthere
      cases hdoes <;> simp_all
    · have hunheard := mt h.receiver.mpr hthere
      cases hdoes <;> simp_all
  finish := by
    rintro rfl
    by_cases hmarked : channel.ended = true
    · have hbefore := h.marked.mp hmarked
      cases hdoes <;> simp_all
    · have hbefore := mt h.marked.mpr hmarked
      cases hdoes <;> simp_all
  askEnded := by
    rintro rfl
    cases hdoes
    exact congrArg ChannelAnswer.told (Bool.eq_iff_iff.mpr (by simpa using h.marked))
  takeLine := by
    rintro rfl
    exact h.takeLine hdoes
  takeFrame := by
    rintro rfl
    exact h.takeFrame hdoes
  askDone := by
    rintro rfl
    cases hdoes
    exact congrArg ChannelAnswer.told (Bool.eq_iff_iff.mpr (by simpa using h.told))
  waits := by
    rintro rfl
    exact h.waits_iff hdoes
  all hend := by
    obtain ⟨hthere, hempty⟩ := h.all hdoes hend
    exact ((h.exchange hdoes).taken_eq_iff hthere).mpr hempty
  told := (h.exchange hdoes).told

/-- Every exchange of a history does and answers what those before it tell. -/
theorem History.lawful {earlier later : List Exchange} {now : Exchange}
    (h : History exchanges channel) (hsplit : exchanges = earlier ++ now :: later) :
    Exchange.Lawful earlier now := by
  obtain ⟨hearlier, hdoes⟩ := h.earlier hsplit
  exact hearlier.account.lawful hdoes

/-- The frames that wait can be taken one after the other, and then there is nothing more
to take: the receiver waits, or the channel reads as closed where the sender is gone. -/
theorem History.drained (h : History exchanges channel) (hthere : channel.hasReceiver = true) :
    ∃ more drained, History (exchanges ++ more) drained ∧
      more.map Exchange.answer = channel.queue.map (.frame ∘ .frame) ∧
      drained.respond .takeFrame =
        (drained, .frame (if channel.hasSender then .waiting else .closed)) := by
  generalize hqueue : channel.queue = queue
  induction queue generalizing exchanges channel with
  | nil =>
      refine ⟨[], channel, by rwa [List.append_nil], rfl, ?_⟩
      simp only [respond, Channel.takeFrame, hqueue]
  | cons frame rest ih =>
      have htake : channel.respond .takeFrame =
          ({ channel with queue := rest }, .frame (.frame frame)) := by
        simp only [respond, Channel.takeFrame, hqueue]
      have hpossible : channel.admits .takeFrame = true := hthere
      obtain ⟨more, drained, hmore, hanswers, hend⟩ :=
        ih (h.exchange hpossible htake) hthere rfl
      refine ⟨_ :: more, drained, by rwa [List.append_cons], ?_, hend⟩
      rw [List.map_cons, hanswers]
      rfl

/-- In every history of a channel the frames that were taken are the first of those that
were accepted, which are the accepted lines and behind them at most one end mark. As long
as there is a receiver it can still take all others, also when the sender has gone. And
every exchange does and answers what those before it tell. -/
theorem frames_accounted (h : History exchanges channel) :
    exchanges.flatMap Exchange.taken <+: exchanges.flatMap Exchange.accepted ∧
    exchanges.flatMap Exchange.accepted =
      (exchanges.flatMap Exchange.sent).map .line ++
        (if exchanges.any Exchange.marks then [.finish] else []) ∧
    (channel.hasReceiver = true →
      exchanges.flatMap Exchange.accepted =
        exchanges.flatMap Exchange.taken ++ channel.queue ∧
      ∃ more drained, History (exchanges ++ more) drained ∧
        more.map Exchange.answer = channel.queue.map (.frame ∘ .frame) ∧
        drained.respond .takeFrame =
          (drained, .frame (if channel.hasSender then .waiting else .closed))) ∧
    ∀ earlier now later, exchanges = earlier ++ now :: later → Exchange.Lawful earlier now := by
  have haccount := h.account
  refine ⟨haccount.order, haccount.lastly, fun hthere => ?_, fun _ _ _ => h.lawful⟩
  exact ⟨haccount.kept hthere, h.drained hthere⟩

/-- A receiver of frames takes the end mark away, so a receiver of lines has to wait until
the sender is gone. -/
theorem frames_accounted_sample :
    ∃ exchanges channel, History exchanges channel ∧
      exchanges.map Exchange.answer =
        [.told true, .frame (.frame .finish), .line .waiting, .nothing, .line .finished] ∧
      ∀ earlier now later, exchanges = earlier ++ now :: later → Exchange.Lawful earlier now := by
  have history := History.start
    |>.exchange (show admits _ .finish = true from rfl) rfl
    |>.exchange (show admits _ .takeFrame = true from rfl) rfl
    |>.exchange (show admits _ .takeLine = true from rfl) rfl
    |>.exchange (show admits _ .dropSender = true from rfl) rfl
    |>.exchange (show admits _ .takeLine = true from rfl) rfl
  exact ⟨_, _, history, rfl, (frames_accounted history).2.2.2⟩

end Channel

end LineShell
