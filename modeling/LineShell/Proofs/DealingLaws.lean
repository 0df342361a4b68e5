import LineShell.Proofs.FedLines
import LineShell.Proofs.OfferedFrames

/-!
What a stage may rely on, in whatever order its channels are used, given up and cancelled.
The lines that it reads are those that were fed, in their order, and what it writes is what
can be taken at the other end. What any use answers is told by the uses before it: the
token goes before a channel that the next stage has given up, and an input that is not
there goes before the token.
-/

namespace LineShell.Wiring

open Dealing

variable {reads writes : Bool} {dealings : List Dealing} {wiring : Wiring} {use : WiringUse}

/-- What a history tells of the wiring that it ends in. -/
structure Account (reads writes : Bool) (dealings : List Dealing) (wiring : Wiring) : Prop where
  supply : Supply dealings wiring.input
  outlet : Outlet dealings wiring.output
  reads : wiring.input.isSome = reads
  writes : wiring.output.isSome = writes
  fired : wiring.cancelled = true ↔ .cancel ∈ dealings.map Dealing.use

private theorem account_fresh (reads writes : Bool) :
    Account reads writes [] (fresh reads writes) where
  supply := by
    cases reads with
    | false => exact .absent rfl rfl
    | true => exact .opened Channel.holds_new rfl (by simp) (by simp [Channel.IsOver])
  outlet := by
    cases writes with
    | false => exact .absent rfl rfl rfl (by simp)
    | true => exact .there .start rfl rfl rfl rfl (by simp) (by simp) (by simp)
  reads := by cases reads <;> rfl
  writes := by cases writes <;> rfl
  fired := by simp [fresh]

private theorem Account.deal (h : Account reads writes dealings wiring)
    (hpossible : wiring.admits use = true) :
    Account reads writes (dealings ++ [wiring.deal use]) (wiring.deal use).after where
  supply := h.supply.deal hpossible
  outlet := h.outlet.deal hpossible
  reads := (wiring.kept_deal use).1.trans h.reads
  writes := (wiring.kept_deal use).2.1.trans h.writes
  fired := by
    rw [(wiring.kept_deal use).2.2, Bool.or_eq_true, h.fired]
    simp [Wiring.deal]

private theorem History.account (h : History reads writes dealings wiring) :
    Account reads writes dealings wiring := by
  induction h with
  | start => exact account_fresh reads writes
  | dealing _ use hpossible ih => exact ih.deal hpossible

/-- Every dealing of a history is the next one of what came before it. -/
theorem History.earlier {earlier later : List Dealing} {now : Dealing}
    (h : History reads writes dealings wiring) (hsplit : dealings = earlier ++ now :: later) :
    ∃ wiring use, History reads writes earlier wiring ∧ wiring.admits use = true ∧
      now = wiring.deal use := by
  induction h generalizing later with
  | start => simp at hsplit
  | dealing before use hpossible ih =>
      rcases Channel.last_or_earlier hsplit with ⟨rfl, rfl⟩ | ⟨front, hfront⟩
      · exact ⟨_, use, before, hpossible, rfl⟩
      · exact ih hfront

/-! What is answered after a history. -/

/-- The stage can still read exactly where there is an input that it has not closed. -/
theorem Account.isReadable_iff (h : Account reads writes dealings wiring) :
    wiring.isReadable = true ↔ ¬ (reads = false ∨ .closeInput ∈ dealings.map Dealing.use) := by
  have hsupply := h.supply
  rw [← h.reads]
  cases hinput : wiring.input with
  | none => simp [isReadable, hinput]
  | some input =>
      rw [hinput] at hsupply
      cases hsupply with
      | opened holds _ there => simp [isReadable, hinput, holds.there, there]
      | closed _ deaf gone => simp [isReadable, hinput, deaf, gone]

/-- The stage is told of the end where it does not read, whether the token has fired or
not. -/
theorem Account.nextLine (h : Account reads writes dealings wiring) :
    let now := wiring.deal .nextLine
    if reads = false ∨ .closeInput ∈ dealings.map Dealing.use then
      now.answer = .read .finished ∧ now.after = now.before
    else if .cancel ∈ dealings.map Dealing.use then
      now.answer = .read .cancelled ∧ now.after = now.before
    else now.answer = .read (nextRead dealings) := by
  dsimp only [Wiring.deal, respond]
  split
  · rename_i hshut
    have hclosed : wiring.isReadable = false :=
      Bool.eq_false_iff.mpr fun hopen => h.isReadable_iff.mp hopen hshut
    rw [nextLine_of_unreadable hclosed]
    exact ⟨rfl, rfl⟩
  · rename_i hopen
    have hopen := h.isReadable_iff.mpr hopen
    split
    · rename_i hfired
      rw [nextLine_of_cancelled hopen (h.fired.mpr hfired)]
      exact ⟨rfl, rfl⟩
    · rename_i hgoing
      have hgoing : wiring.cancelled = false := Bool.eq_false_iff.mpr (mt h.fired.mp hgoing)
      obtain ⟨input, hinput, hthere⟩ := (Option.any_eq_true _ _).mp hopen
      rw [nextLine_of_readable hinput hthere hgoing]
      exact congrArg WiringAnswer.read ((hinput ▸ h.supply).takeLine hthere)

/-- The token goes before a channel that the next stage has given up. -/
theorem Account.emit (h : Account reads writes dealings wiring) (text : Text) :
    let now := wiring.deal (.emit text)
    if .cancel ∈ dealings.map Dealing.use then
      now.answer = .wrote .cancelled ∧ now.after = now.before
    else if .turnAway ∈ dealings.map Dealing.use then
      now.answer = .wrote .downstreamClosed ∧ now.after = now.before
    else now.answer = .wrote .sent := by
  dsimp only [Wiring.deal, respond]
  have houtlet := h.outlet
  split
  · rename_i hfired
    rw [emit_of_cancelled (h.fired.mpr hfired)]
    exact ⟨rfl, rfl⟩
  · rename_i hgoing
    have hgoing : wiring.cancelled = false := Bool.eq_false_iff.mpr (mt h.fired.mp hgoing)
    cases houtput : wiring.output with
    | none =>
        rw [houtput] at houtlet
        rw [if_neg houtlet.not_turned, emit_of_none houtput hgoing]
    | some output =>
        rw [houtput] at houtlet
        have hsame : { wiring with output := some output } = wiring := by rw [← houtput]
        rw [emit_of_output houtput hgoing]
        split
        · rename_i hturned
          have hgone : ¬ output.hasReceiver = true := fun hthere =>
            houtlet.heard_iff.mp hthere hturned
          rw [Channel.send, if_neg hgone, if_neg hgone, hsame]
          exact ⟨rfl, rfl⟩
        · rename_i hheard
          rw [if_pos (houtlet.heard_iff.mpr hheard)]

private theorem Account.finish (h : Account reads writes dealings wiring) :
    wiring.finish.2 = (writes && .finish ∉ dealings.map Dealing.use) := by
  have houtlet := h.outlet
  rw [← h.writes]
  cases houtput : wiring.output with
  | none => rw [finish_of_none houtput, Option.isSome_none, Bool.false_and]
  | some output =>
      rw [houtput] at houtlet
      rw [finish_of_output houtput, Option.isSome_some, Bool.true_and, houtlet.finish_eq]

private theorem Account.lawful (h : Account reads writes dealings wiring)
    (hpossible : wiring.admits use = true) :
    Lawful reads writes dealings (wiring.deal use) where
  feed := by
    rintro text rfl
    obtain ⟨input, hinput, -⟩ := (Option.any_eq_true _ _).mp hpossible
    rw [deal_of_input hinput rfl]
    exact congrArg (WiringAnswer.far ∘ .told) ((hinput ▸ h.supply).send text)
  nextLine := by
    rintro rfl
    exact h.nextLine
  emit := by
    rintro text rfl
    exact h.emit text
  finish := by
    rintro rfl
    exact congrArg WiringAnswer.told h.finish
  takeLine := by
    rintro rfl
    obtain ⟨output, houtput, hthere⟩ := (Option.any_eq_true _ _).mp hpossible
    have houtlet := houtput ▸ h.outlet
    have htake := houtlet.takeLine hthere
    rw [deal_of_output houtput rfl]
    split at htake
    · rename_i htold
      rw [if_pos htold]
      simp [Channel.respond, htake, taken, outgoing, houtput]
    · rename_i hgoing
      rw [if_neg hgoing]
      refine ⟨congrArg (WiringAnswer.far ∘ .line) htake.1, ?_⟩
      simp only [taken, outgoing, houtput, Option.map_some, Option.getD_some, Channel.respond,
        htake.2, houtlet.inOutput_eq hthere, take_length_sub_tail]
  takeFrame := by
    rintro rfl
    obtain ⟨output, houtput, hthere⟩ := (Option.any_eq_true _ _).mp hpossible
    have houtlet := houtput ▸ h.outlet
    have htake := houtlet.takeFrame hthere
    rw [deal_of_output houtput rfl]
    refine ⟨congrArg (WiringAnswer.far ∘ .frame) htake.1, ?_⟩
    simp only [taken, outgoing, houtput, Option.map_some, Option.getD_some, Channel.respond,
      htake.2, houtlet.inOutput_eq hthere, take_length_sub_tail]

/-- In every history of a wiring the stage has read the first of the lines that were fed to
it, and as long as it reads the others wait for it. The receiver of its output has taken
the first of the frames that the stage handed on, and can take the others. And every
dealing answers what those before it tell. -/
theorem dealings_accounted (h : History reads writes dealings wiring) :
    dealings.flatMap Dealing.read <+: dealings.flatMap fed ∧
    (∀ input, wiring.input = some input → input.hasReceiver = true →
      dealings.flatMap fed = dealings.flatMap Dealing.read ++ input.lines) ∧
    dealings.flatMap taken <+: offered dealings ∧
    (∀ output, wiring.output = some output → output.hasReceiver = true →
      offered dealings = dealings.flatMap taken ++ output.queue) ∧
    ∀ earlier now later, dealings = earlier ++ now :: later →
      Lawful reads writes earlier now := by
  have haccount := h.account
  refine ⟨haccount.supply.order, ?_, haccount.outlet.order, ?_, ?_⟩
  · intro input hinput hthere
    exact (hinput ▸ haccount.supply).kept hthere
  · intro output houtput hthere
    exact (houtput ▸ haccount.outlet).kept hthere
  · intro earlier now later hsplit
    obtain ⟨before, use, hearlier, hpossible, rfl⟩ := h.earlier hsplit
    exact hearlier.account.lawful hpossible

/-- The token fires while a line waits for a stage whose output nobody reads any more. -/
theorem dealings_accounted_sample :
    ∃ dealings wiring, History true true dealings wiring ∧
      dealings.map Dealing.answer =
        [.far (.told true), .far .nothing, .wrote .downstreamClosed, .nothing,
          .wrote .cancelled, .read .cancelled, .nothing, .read .finished] ∧
      dealings.flatMap Dealing.read <+: dealings.flatMap fed ∧
      ∀ earlier now later, dealings = earlier ++ now :: later →
        Lawful true true earlier now := by
  have made : History true true [] (fresh true true) := .start
  have history := made
    |>.dealing (.feed "x".toList) rfl
    |>.dealing .turnAway rfl
    |>.dealing (.emit "y".toList) rfl
    |>.dealing .cancel rfl
    |>.dealing (.emit "y".toList) rfl
    |>.dealing .nextLine rfl
    |>.dealing .closeInput rfl
    |>.dealing .nextLine rfl
  obtain ⟨hread, -, -, -, hlawful⟩ := dealings_accounted history
  exact ⟨_, _, history, rfl, hread, hlawful⟩

end LineShell.Wiring
