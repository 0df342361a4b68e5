import LineShell.Proofs.Dealings

/-!
The input of a wiring along its histories. The lines that are fed wait for the stage, which
reads them in their order and is told of their end behind the last of them. Once the stage
has closed its input nothing that is fed is taken in, and nothing is read.
-/

namespace LineShell.Dealing

/-- What a history tells of the input of a wiring: there is none, or these lines wait in it
for the stage, or the stage has closed it. -/
inductive Supply (dealings : List Dealing) : Option Channel → Prop
  | absent (fed : dealings.flatMap fed = []) (read : dealings.flatMap read = []) :
      Supply dealings none
  | opened {input : Channel} {lines : List Text} (holds : input.Holds lines)
      (all : dealings.flatMap fed = dealings.flatMap read ++ lines)
      (there : .closeInput ∉ dealings.map use)
      (isOver : input.IsOver ↔ .mark ∈ dealings.map use ∨ .hangUp ∈ dealings.map use) :
      Supply dealings (some input)
  | closed {input : Channel} (order : dealings.flatMap read <+: dealings.flatMap fed)
      (deaf : input.hasReceiver = false) (gone : .closeInput ∈ dealings.map use) :
      Supply dealings (some input)

variable {dealings : List Dealing} {wiring : Wiring}

/-- A dealing that does nothing to the input. -/
structure Spares (dealing : Dealing) : Prop where
  fed : dealing.fed = []
  read : dealing.read = []
  quiet : dealing.use ≠ .closeInput ∧ dealing.use ≠ .mark ∧ dealing.use ≠ .hangUp

private theorem Supply.spared {dealing : Dealing} {input : Option Channel}
    (h : Supply dealings input)
    (hspares : dealing.Spares) : Supply (dealings ++ [dealing]) input := by
  obtain ⟨hfed, hread, hclose, hmark, hhang⟩ := hspares
  cases h with
  | absent fed read => exact .absent (by simp [fed, hfed]) (by simp [read, hread])
  | opened holds all there isOver =>
      refine .opened holds (by simp [all, hfed, hread]) ?_ ?_
      · simpa [Ne.symm hclose] using there
      · simpa [Ne.symm hmark, Ne.symm hhang] using isOver
  | closed order deaf gone =>
      exact .closed (by simpa [hfed, hread] using order) deaf (by simp [gone])

/-- A line that is fed waits for the stage, unless the stage has closed its input. -/
theorem Supply.feed {text : Text} (h : Supply dealings wiring.input)
    (hpossible : wiring.admits (.feed text) = true) :
    Supply (dealings ++ [wiring.deal (.feed text)]) (wiring.deal (.feed text)).after.input := by
  obtain ⟨input, hinput, hopen⟩ := (Option.any_eq_true _ _).mp hpossible
  rw [Wiring.deal_of_input hinput rfl]
  rw [hinput] at h
  cases h with
  | opened holds all there isOver =>
      have hmore : ¬ input.IsOver := by
        simpa [Channel.admits, Channel.IsOver, and_comm] using hopen
      have hsent :
          input.send text = ({ input with queue := input.queue ++ [.line text] }, true) := by
        rw [Channel.send, if_pos holds.there]
      refine .opened (holds.send hmore text) ?_ (by simpa using there) ?_
      · simp [all, fed, read, Channel.respond, hsent]
      · simpa [Channel.respond, hsent, Channel.IsOver] using isOver
  | closed order deaf gone =>
      have hrefused : input.send text = (input, false) := by
        rw [Channel.send, if_neg (by simp [deaf])]
      refine .closed ?_ (by rwa [Channel.respond, hrefused]) (by simp [gone])
      simpa [fed, read, Channel.respond, hrefused] using order

/-- Whoever feeds the input says that no more lines come. -/
theorem Supply.isOver {dealing : Dealing} {input next : Channel} (h : Supply dealings (some input))
    (huse : dealing.use = .mark ∨ dealing.use = .hangUp)
    (hspares : dealing.fed = [] ∧ dealing.read = []) (hover : next.IsOver)
    (hholds : ∀ lines, input.Holds lines → next.Holds lines)
    (hsame : next.hasReceiver = input.hasReceiver) :
    Supply (dealings ++ [dealing]) (some next) := by
  obtain ⟨hfed, hread⟩ := hspares
  have hclose : .closeInput ≠ dealing.use := by
    rcases huse with huse | huse <;> simp [huse]
  cases h with
  | opened holds all there =>
      refine .opened (hholds _ holds) (by simp [all, hfed, hread])
        (by simpa [hclose] using there) ?_
      refine iff_of_true hover ?_
      rcases huse with huse | huse <;> simp [huse]
  | closed order deaf gone =>
      exact .closed (by simpa [hfed, hread] using order) (hsame.trans deaf) (by simp [gone])

/-- The stage reads the first line that waits for it. -/
theorem Supply.nextLine (h : Supply dealings wiring.input) :
    Supply (dealings ++ [wiring.deal .nextLine]) (wiring.deal .nextLine).after.input := by
  rw [Wiring.deal, Wiring.respond]
  by_cases hopen : wiring.isReadable = true
  · cases hfired : wiring.cancelled with
    | true =>
        rw [Wiring.nextLine_of_cancelled hopen hfired]
        exact h.spared ⟨rfl, rfl, by simp⟩
    | false =>
        obtain ⟨input, hinput, hthere⟩ := (Option.any_eq_true _ _).mp hopen
        rw [hinput] at h
        rw [Wiring.nextLine_of_readable hinput hthere hfired]
        cases h with
        | opened holds all there isOver =>
            have htake := holds.takeLine
            have hover : input.takeLine.1.IsOver ↔ input.IsOver := by
              rw [Channel.IsOver, (input.ends_takeLine).1, (input.ends_takeLine).2.1]
              rfl
            cases hreception : input.takeLine.2 with
            | line text =>
                rw [hreception] at htake
                obtain ⟨rest, rfl, hrest⟩ := htake
                refine .opened hrest ?_ (by simpa using there) (by simpa [hover] using isOver)
                simp [all, fed, read, Reception.outcome]
            | finished =>
                rw [hreception] at htake
                obtain ⟨rfl, -, hrest⟩ := htake
                refine .opened hrest ?_ (by simpa using there) (by simpa [hover] using isOver)
                simp [all, fed, read, Reception.outcome]
            | waiting =>
                rw [hreception] at htake
                obtain ⟨rfl, -, hsame⟩ := htake
                rw [hsame]
                refine .opened holds ?_ (by simpa using there) (by simpa using isOver)
                simp [all, fed, read, Reception.outcome]
        | closed _ deaf =>
            rw [hthere] at deaf
            cases deaf
  · rw [Wiring.nextLine_of_unreadable (by simpa using hopen)]
    exact h.spared ⟨rfl, rfl, by simp⟩

private theorem Supply.closeInput (h : Supply dealings wiring.input) :
    Supply (dealings ++ [wiring.deal .closeInput]) (wiring.deal .closeInput).after.input := by
  rw [Wiring.deal, Wiring.respond, Wiring.closeInput]
  cases hinput : wiring.input with
  | none =>
      rw [hinput] at h
      cases h with
      | absent fed read =>
          exact .absent (by simp [fed, Dealing.fed]) (by simp [read, Dealing.read])
  | some input =>
      rw [hinput] at h
      refine .closed ?_ rfl (by simp)
      cases h with
      | opened _ all => simp [all, fed, read]
      | closed order => simpa [fed, read] using order

theorem Supply.deal {use : WiringUse} (h : Supply dealings wiring.input)
    (hpossible : wiring.admits use = true) :
    Supply (dealings ++ [wiring.deal use]) (wiring.deal use).after.input := by
  cases use with
  | feed text => exact h.feed hpossible
  | mark =>
      obtain ⟨input, hinput, hsender⟩ := (Option.any_eq_true _ _).mp hpossible
      rw [Wiring.deal_of_input hinput rfl]
      exact (hinput ▸ h).isOver (.inl rfl) ⟨rfl, rfl⟩ input.isOver_finish
        (fun _ holds => holds.finish hsender) input.hasReceiver_finish
  | hangUp =>
      obtain ⟨input, hinput, -⟩ := (Option.any_eq_true _ _).mp hpossible
      rw [Wiring.deal_of_input hinput rfl]
      exact (hinput ▸ h).isOver (.inr rfl) ⟨rfl, rfl⟩ (.inr rfl)
        (fun _ holds => holds.dropSender) rfl
  | nextLine => exact h.nextLine
  | closeInput => exact h.closeInput
  | emit text =>
      rw [Wiring.deal, Wiring.respond, Wiring.input_emit]
      exact h.spared ⟨rfl, rfl, by simp⟩
  | finish =>
      rw [Wiring.deal, Wiring.respond, Wiring.input_finish]
      exact h.spared ⟨rfl, rfl, by simp⟩
  | cancel => exact h.spared ⟨rfl, rfl, by simp [Wiring.deal]⟩
  | takeLine | takeFrame | turnAway =>
      obtain ⟨output, houtput, -⟩ := (Option.any_eq_true _ _).mp hpossible
      rw [Wiring.deal_of_output houtput rfl]
      exact h.spared ⟨rfl, rfl, by simp⟩

/-! What the histories add up to. -/

theorem Supply.order {input : Option Channel} (h : Supply dealings input) :
    dealings.flatMap read <+: dealings.flatMap fed := by
  cases h with
  | absent fed read => rw [fed, read]
  | opened _ all => exact all ▸ List.prefix_append _ _
  | closed order => exact order

/-- Nothing that was fed is lost as long as the stage reads. -/
theorem Supply.kept {input : Channel} (h : Supply dealings (some input))
    (hthere : input.hasReceiver = true) :
    dealings.flatMap fed = dealings.flatMap read ++ input.lines := by
  cases h with
  | opened holds all => rw [all, holds.lines_eq]
  | closed _ deaf =>
      rw [hthere] at deaf
      cases deaf

theorem Supply.send {input : Channel} (h : Supply dealings (some input)) (text : Text) :
    (input.send text).2 = decide (.closeInput ∉ dealings.map use) := by
  cases h with
  | opened holds _ there => simp [Channel.send, holds.there, there]
  | closed _ deaf gone => simp [Channel.send, deaf, gone]

/-- The stage is given the first line that it has not read, or it is told of the end where
no more can come. -/
theorem Supply.takeLine {input : Channel} (h : Supply dealings (some input))
    (hthere : input.hasReceiver = true) : input.takeLine.2.outcome = nextRead dealings := by
  rw [nextRead]
  cases h with
  | opened holds all _ isOver =>
      have htake := holds.takeLine
      rw [all, List.drop_left]
      cases hreception : input.takeLine.2 with
      | line text =>
          rw [hreception] at htake
          obtain ⟨rest, rfl, -⟩ := htake
          rfl
      | finished =>
          rw [hreception] at htake
          obtain ⟨rfl, hover, -⟩ := htake
          exact (if_pos (isOver.mp hover)).symm
      | waiting =>
          rw [hreception] at htake
          obtain ⟨rfl, hopen, -⟩ := htake
          exact (if_neg (mt isOver.mpr hopen)).symm
  | closed _ deaf =>
      rw [hthere] at deaf
      cases deaf

end LineShell.Dealing
