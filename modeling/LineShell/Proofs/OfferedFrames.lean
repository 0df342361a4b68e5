import LineShell.Proofs.Dealings

/-!
The output of a wiring along its histories. All that the stage and the receiver of its
output do there is a history of a channel, so what the receiver takes are the first of the
frames that the stage has handed on, and the others wait for it.
-/

namespace LineShell.Dealing

/-- What a history tells of the output of a wiring: there is none, or the dealings with it
make a history of a channel whose sender stays. -/
inductive Outlet (dealings : List Dealing) : Option Channel → Prop
  | absent (emitted : dealings.flatMap emitted = []) (taken : dealings.flatMap taken = [])
      (marks : dealings.any marks = false) (turned : .turnAway ∉ dealings.map use) :
      Outlet dealings none
  | there {output : Channel} {exchanges : List Exchange}
      (history : Channel.History exchanges output) (sender : output.hasSender = true)
      (sent : exchanges.flatMap Exchange.sent = dealings.flatMap emitted)
      (taken : exchanges.flatMap Exchange.taken = dealings.flatMap taken)
      (marks : exchanges.any Exchange.marks = dealings.any marks)
      (turned : .dropReceiver ∈ exchanges.map Exchange.use ↔ .turnAway ∈ dealings.map use)
      (marked : .finish ∈ exchanges.map Exchange.use ↔ .finish ∈ dealings.map use)
      (told : .line .finished ∈ exchanges.map Exchange.answer ↔
        .far (.line .finished) ∈ dealings.map answer) :
      Outlet dealings (some output)

/-- A dealing that does nothing to the output. -/
structure Skips (dealing : Dealing) : Prop where
  emitted : dealing.emitted = []
  taken : dealing.taken = []
  marks : dealing.marks = false
  quiet : dealing.use ≠ .turnAway ∧ dealing.use ≠ .finish ∧
    dealing.answer ≠ .far (.line .finished)

/-- A dealing that does to the output what an exchange does. -/
structure Shows (dealing : Dealing) (exchange : Exchange) : Prop where
  sent : exchange.sent = dealing.emitted
  taken : exchange.taken = dealing.taken
  marks : exchange.marks = dealing.marks
  turned : exchange.use = .dropReceiver ↔ dealing.use = .turnAway
  marked : exchange.use = .finish ↔ dealing.use = .finish
  told : exchange.answer = .line .finished ↔ dealing.answer = .far (.line .finished)
  kept : exchange.use ≠ .dropSender

variable {dealings : List Dealing} {wiring : Wiring} {output : Channel}

private theorem Outlet.skipped {dealing : Dealing} {output : Option Channel}
    (h : Outlet dealings output)
    (hskips : dealing.Skips) : Outlet (dealings ++ [dealing]) output := by
  obtain ⟨hemitted, htaken, hmarks, hturn, hfinish, htell⟩ := hskips
  cases h with
  | absent emitted taken marks turned =>
      refine .absent (by simp [emitted, hemitted]) (by simp [taken, htaken])
        (by simp [marks, hmarks]) ?_
      simpa [Ne.symm hturn] using turned
  | there history sender sent taken marks turned marked told =>
      refine .there history sender (by simp [sent, hemitted]) (by simp [taken, htaken])
        (by simp [marks, hmarks]) ?_ ?_ ?_
      · simpa [Ne.symm hturn] using turned
      · simpa [Ne.symm hfinish] using marked
      · simpa [Ne.symm htell] using told

private theorem Outlet.shown {dealing : Dealing} {next : Channel} {channelUse : ChannelUse}
    {channelAnswer : ChannelAnswer} (h : Outlet dealings (some output))
    (hpossible : output.admits channelUse = true)
    (happens : output.respond channelUse = (next, channelAnswer))
    (hshows : dealing.Shows
      { before := output, use := channelUse, answer := channelAnswer, after := next }) :
    Outlet (dealings ++ [dealing]) (some next) := by
  cases h with
  | there history sender sent taken marks turned marked told =>
      have hsender : next.hasSender = true := by
        rw [(Exchange.does_of_respond hpossible happens).hasSender, sender]
        simpa using Ne.symm hshows.kept
      refine .there (history.exchange hpossible happens) hsender ?_ ?_ ?_ ?_ ?_ ?_
      · simp [sent, hshows.sent]
      · simp [taken, hshows.taken]
      · simp [marks, hshows.marks]
      · simp [turned, eq_comm, hshows.turned]
      · simp [marked, eq_comm, hshows.marked]
      · simp [told, eq_comm, hshows.told]

private theorem Outlet.hasSender (h : Outlet dealings (some output)) : output.hasSender = true := by
  cases h
  assumption

/-- A line that the stage writes is sent, unless the token has fired. -/
theorem Outlet.emit {text : Text} (h : Outlet dealings wiring.output)
    (hpossible : wiring.admits (.emit text) = true) :
    Outlet (dealings ++ [wiring.deal (.emit text)]) (wiring.deal (.emit text)).after.output := by
  rw [Wiring.deal, Wiring.respond]
  cases hfired : wiring.cancelled with
  | true =>
      rw [Wiring.emit_of_cancelled hfired]
      exact h.skipped ⟨rfl, rfl, rfl, by simp⟩
  | false =>
      cases houtput : wiring.output with
      | none =>
          rw [Wiring.emit_of_none houtput hfired, houtput]
          refine (houtput ▸ h).skipped ⟨?_, rfl, rfl, by simp⟩
          simp [emitted, houtput]
      | some output =>
          rw [houtput] at h
          have hunmarked : output.ended = false := by
            simpa [Wiring.admits, hfired, houtput] using hpossible
          have hpossible : output.admits (.send text) = true := by
            simp [Channel.admits, h.hasSender, hunmarked]
          rw [Wiring.emit_of_output houtput hfired]
          refine h.shown hpossible rfl ⟨?_, rfl, rfl, by simp, by simp, by simp, by simp⟩
          cases hthere : output.hasReceiver <;>
            simp [Exchange.sent, emitted, Channel.send, houtput, hthere]

private theorem Outlet.finish (h : Outlet dealings wiring.output) :
    Outlet (dealings ++ [wiring.deal .finish]) (wiring.deal .finish).after.output := by
  rw [Wiring.deal, Wiring.respond]
  cases houtput : wiring.output with
  | none =>
      rw [houtput] at h
      rw [Wiring.finish_of_none houtput, houtput]
      cases h with
      | absent emitted taken marks turned =>
          refine .absent (by simp [emitted, Dealing.emitted]) (by simp [taken, Dealing.taken]) ?_
            (by simpa using turned)
          simp [marks, Dealing.marks]
  | some output =>
      rw [houtput] at h
      have hpossible : output.admits .finish = true := h.hasSender
      rw [Wiring.finish_of_output houtput]
      refine h.shown hpossible rfl ⟨rfl, rfl, ?_, by simp, by simp, by simp, by simp⟩
      simp [Exchange.marks, marks, houtput]

/-- What the receiver of the output does is an exchange with it. -/
theorem Outlet.far {use : WiringUse} {channelUse : ChannelUse} (h : Outlet dealings wiring.output)
    (houtput : wiring.output = some output) (hpossible : output.admits channelUse = true)
    (hfar : wiring.respond use = wiring.atOutput channelUse)
    (huse : (use = .takeLine ∧ channelUse = .takeLine) ∨
      (use = .takeFrame ∧ channelUse = .takeFrame) ∨
      (use = .turnAway ∧ channelUse = .dropReceiver)) :
    Outlet (dealings ++ [wiring.deal use]) (wiring.deal use).after.output := by
  rw [Wiring.deal_of_output houtput hfar]
  refine (houtput ▸ h).shown hpossible rfl ?_
  rcases huse with ⟨rfl, rfl⟩ | ⟨rfl, rfl⟩ | ⟨rfl, rfl⟩ <;>
    exact ⟨rfl, by simp [Exchange.taken, taken, outgoing, houtput], rfl, by simp, by simp,
      by simp [Channel.respond], by simp⟩

theorem Outlet.deal {use : WiringUse} (h : Outlet dealings wiring.output)
    (hpossible : wiring.admits use = true) :
    Outlet (dealings ++ [wiring.deal use]) (wiring.deal use).after.output := by
  cases use with
  | emit text => exact h.emit hpossible
  | finish => exact h.finish
  | takeLine | takeFrame | turnAway =>
      obtain ⟨output, houtput, hadmits⟩ := (Option.any_eq_true _ _).mp hpossible
      exact h.far houtput hadmits rfl (by simp)
  | feed text | mark | hangUp =>
      obtain ⟨input, hinput, -⟩ := (Option.any_eq_true _ _).mp hpossible
      rw [Wiring.deal_of_input hinput rfl]
      exact h.skipped ⟨rfl, rfl, rfl, by simp [Channel.respond]⟩
  | nextLine =>
      rw [Wiring.deal, Wiring.respond, Wiring.output_nextLine]
      exact h.skipped ⟨rfl, rfl, rfl, by simp⟩
  | closeInput | cancel => exact h.skipped ⟨rfl, rfl, rfl, by simp [Wiring.deal, Wiring.respond]⟩

/-! What the histories add up to. -/

private theorem accepted_eq_offered {exchanges : List Exchange}
    (hhistory : Channel.History exchanges output)
    (hsent : exchanges.flatMap Exchange.sent = dealings.flatMap emitted)
    (hmarks : exchanges.any Exchange.marks = dealings.any marks) :
    exchanges.flatMap Exchange.accepted = offered dealings := by
  rw [hhistory.account.lastly, hsent, hmarks, offered]

theorem Outlet.order {output : Option Channel} (h : Outlet dealings output) :
    dealings.flatMap taken <+: offered dealings := by
  cases h with
  | absent _ taken => exact taken ▸ List.nil_prefix
  | there history _ sent taken marks =>
      rw [← accepted_eq_offered history sent marks, ← taken]
      exact history.account.order

/-- Nothing that the stage has handed on is lost as long as there is a receiver. -/
theorem Outlet.kept (h : Outlet dealings (some output)) (hthere : output.hasReceiver = true) :
    offered dealings = dealings.flatMap taken ++ output.queue := by
  cases h with
  | there history _ sent taken marks =>
      rw [← accepted_eq_offered history sent marks, ← taken]
      exact history.account.kept hthere

theorem Outlet.inOutput_eq (h : Outlet dealings (some output))
    (hthere : output.hasReceiver = true) : inOutput dealings = output.queue := by
  rw [inOutput, h.kept hthere, List.drop_left]

/-- The receiver of the output is told what waits for it. Its sender is there, for it is
the stage. -/
theorem Outlet.takeLine (h : Outlet dealings (some output)) (hthere : output.hasReceiver = true) :
    if .far (.line .finished) ∈ dealings.map answer then
      output.takeLine = (output, .finished)
    else
      output.takeLine.2 = (match inOutput dealings with
        | .line text :: _ => .line text
        | .finish :: _ => .finished
        | [] => .waiting) ∧
      output.takeLine.1.queue = (inOutput dealings).tail := by
  have hqueue := h.inOutput_eq hthere
  cases h with
  | there history sender _ _ _ _ _ told =>
      have hdone := history.account.told.trans told
      split
      · rename_i htold
        rw [Channel.takeLine, if_pos (hdone.mpr htold)]
      · rename_i hgoing
        rw [Channel.takeLine, if_neg (mt hdone.mp hgoing), hqueue]
        cases hwaits : output.queue with
        | nil => simp [sender, hwaits]
        | cons frame rest => cases frame <;> simp

theorem Outlet.takeFrame (h : Outlet dealings (some output)) (hthere : output.hasReceiver = true) :
    output.takeFrame.2 = (match inOutput dealings with
      | frame :: _ => .frame frame
      | [] => .waiting) ∧
    output.takeFrame.1.queue = (inOutput dealings).tail := by
  have hqueue := h.inOutput_eq hthere
  rw [hqueue, Channel.takeFrame]
  cases hwaits : output.queue <;> simp [h.hasSender, hwaits]

theorem Outlet.finish_eq (h : Outlet dealings (some output)) :
    output.finish.2 = decide (.finish ∉ dealings.map use) := by
  cases h with
  | there history _ _ _ _ _ marked _ =>
      have hended : output.ended = decide (.finish ∈ dealings.map use) :=
        Bool.eq_iff_iff.mpr (by rw [history.account.marked, marked, decide_eq_true_iff])
      rw [decide_not, ← hended]
      cases hmarked : output.ended <;> simp [Channel.finish, hmarked, apply_ite Prod.snd]

theorem Outlet.heard_iff (h : Outlet dealings (some output)) :
    output.hasReceiver = true ↔ .turnAway ∉ dealings.map use := by
  cases h with
  | there history _ _ _ _ turned => rw [history.account.receiver, turned]

theorem Outlet.not_turned (h : Outlet dealings none) : .turnAway ∉ dealings.map use := by
  cases h
  assumption

theorem take_length_sub_tail (queue : List Frame) :
    queue.take (queue.length - queue.tail.length) = queue.take 1 := by
  cases queue <;> simp

end LineShell.Dealing
