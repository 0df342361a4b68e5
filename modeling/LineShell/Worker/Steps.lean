import LineShell.Worker

/-!
The steps of a worker, each with what has to hold before it and with what it
leaves behind. What is said about a step is said by cases on these, so the step
functions themselves are opened here and nowhere else.
-/

namespace LineShell

/-- The steps that a body can take. -/
inductive Body.Goes (wiring : Wiring) (world : World) : Body → Body → Wiring → World → Prop
  | begin (verb : Verb) :
      Goes wiring world (.fresh verb) (Body.start world verb).1 wiring (Body.start world verb).2
  | shut (reader : Reader) (closed : wiring.isReadable = false) :
      Goes wiring world (.reading reader) (Body.conclude reader) wiring world
  | stopReading (reader : Reader) (opened : wiring.isReadable = true)
      (fired : wiring.cancelled = true) :
      Goes wiring world (.reading reader) (.ended .cancelled) wiring world
  | look (reader : Reader) (opened : wiring.isReadable = true)
      (going : wiring.cancelled = false) :
      Goes wiring world (.reading reader) (.receiving reader) wiring world
  | take {line : Text} {after : Wiring} (reader : Reader)
      (received : wiring.receive = (after, .line line)) :
      Goes wiring world (.receiving reader) (Body.handle line reader) after world
  | finish {after : Wiring} (reader : Reader) (received : wiring.receive = (after, .finished)) :
      Goes wiring world (.receiving reader) (Body.conclude reader) after world
  | wait {after : Wiring} (reader : Reader) (received : wiring.receive = (after, .waiting)) :
      Goes wiring world (.receiving reader) (.waiting reader) after world
  | stopWaiting (reader : Reader) (fired : wiring.cancelled = true) :
      Goes wiring world (.waiting reader) (.ended .cancelled) wiring world
  | wake (reader : Reader) (going : wiring.cancelled = false) (ready : wiring.isReady = true) :
      Goes wiring world (.waiting reader) (.receiving reader) wiring world
  | write (line : Text) (reader : Reader) :
      Goes wiring world (.writing line reader)
        (.reading (Body.writeLine world line reader).1) wiring (Body.writeLine world line reader).2
  | store (place : Place) (held : Bytes) :
      Goes wiring world (.storing place held) (.ended .completed) wiring (world.append place held)
  | stopEmitting (line : Text) (next : Continuation) (fired : wiring.cancelled = true) :
      Goes wiring world (.emitting line next) (.ended .cancelled) wiring world
  | emit (line : Text) (next : Continuation) (going : wiring.cancelled = false) :
      Goes wiring world (.emitting line next) (.sending line next) wiring world
  | send {after : Wiring} (line : Text) (next : Continuation)
      (transmitted : wiring.transmit line = (after, true)) :
      Goes wiring world (.sending line next) (Body.resume next) after world
  | refuse {after : Wiring} (line : Text) (next : Continuation)
      (transmitted : wiring.transmit line = (after, false)) :
      Goes wiring world (.sending line next) (.ended .downstreamClosed) after world
  | close : Goes wiring world .closing (.ended .completed) wiring.closeInput world

variable {wiring after : Wiring} {world later : World}

theorem Body.goes_of_step {body ahead : Body}
    (h : body.step wiring world = some (ahead, after, later)) :
    Goes wiring world body ahead after later := by
  cases body with
  | fresh verb =>
      simp only [step, Option.some.injEq, Prod.mk.injEq] at h
      obtain ⟨rfl, rfl, rfl⟩ := h
      exact .begin verb
  | reading reader =>
      simp only [step] at h
      split at h
      · rename_i hclosed
        simp only [Option.some.injEq, Prod.mk.injEq] at h
        obtain ⟨rfl, rfl, rfl⟩ := h
        exact .shut reader (by simpa using hclosed)
      · rename_i hopened
        have hreadable : wiring.isReadable = true := by simpa using hopened
        split at h <;> rename_i htoken <;> simp only [Option.some.injEq, Prod.mk.injEq] at h <;>
          obtain ⟨rfl, rfl, rfl⟩ := h
        · exact .stopReading reader hreadable htoken
        · exact .look reader hreadable (by simpa using htoken)
  | receiving reader =>
      simp only [step] at h
      split at h <;> rename_i hreceived <;> simp only [Option.some.injEq, Prod.mk.injEq] at h <;>
        obtain ⟨rfl, rfl, rfl⟩ := h
      · exact .take reader hreceived
      · exact .finish reader hreceived
      · exact .wait reader hreceived
  | waiting reader =>
      simp only [step] at h
      split at h
      · rename_i hfired
        simp only [Option.some.injEq, Prod.mk.injEq] at h
        obtain ⟨rfl, rfl, rfl⟩ := h
        exact .stopWaiting reader hfired
      · rename_i hgoing
        split at h
        · rename_i hready
          simp only [Option.some.injEq, Prod.mk.injEq] at h
          obtain ⟨rfl, rfl, rfl⟩ := h
          exact .wake reader (by simpa using hgoing) hready
        · cases h
  | writing line reader =>
      simp only [step, Option.some.injEq, Prod.mk.injEq] at h
      obtain ⟨rfl, rfl, rfl⟩ := h
      exact .write line reader
  | storing place held =>
      simp only [step, Option.some.injEq, Prod.mk.injEq] at h
      obtain ⟨rfl, rfl, rfl⟩ := h
      exact .store place held
  | emitting line next =>
      simp only [step] at h
      split at h <;> rename_i htoken <;> simp only [Option.some.injEq, Prod.mk.injEq] at h <;>
        obtain ⟨rfl, rfl, rfl⟩ := h
      · exact .stopEmitting line next htoken
      · exact .emit line next (by simpa using htoken)
  | sending line next =>
      simp only [step] at h
      split at h <;> rename_i htransmitted <;>
        simp only [Option.some.injEq, Prod.mk.injEq] at h <;> obtain ⟨rfl, rfl, rfl⟩ := h
      · exact .send line next htransmitted
      · exact .refuse line next htransmitted
  | closing =>
      simp only [step, Option.some.injEq, Prod.mk.injEq] at h
      obtain ⟨rfl, rfl, rfl⟩ := h
      exact .close
  | ended ending => cases h

theorem Body.step_of_goes {body ahead : Body} (h : body.Goes wiring world ahead after later) :
    body.step wiring world = some (ahead, after, later) := by
  cases h with
  | shut reader hclosed => simp [step, hclosed]
  | stopReading reader hopened hfired => simp [step, hopened, hfired]
  | look reader hopened hgoing => simp [step, hopened, hgoing]
  | take reader hreceived | finish reader hreceived | wait reader hreceived =>
      simp only [step, hreceived]
  | stopWaiting reader hfired => simp [step, hfired]
  | wake reader hgoing hready => simp [step, hgoing, hready]
  | stopEmitting line next hfired => simp [step, hfired]
  | emit line next hgoing => simp [step, hgoing]
  | send line next htransmitted | refuse line next htransmitted =>
      simp only [step, htransmitted]
  | begin verb => rfl
  | write line reader => rfl
  | store place held => rfl
  | close => rfl

def Ending.exit : Ending → Exit
  | .cancelled => .cancelled
  | .completed | .downstreamClosed => .finished

/-- The steps that a worker can take: those of its body, and two at its end. -/
inductive Worker.Goes (wiring : Wiring) (world : World) :
    Worker → Worker → Wiring → World → Prop
  | work {body ahead : Body} {after : Wiring} {later : World}
      (goes : body.Goes wiring world ahead after later) :
      Goes wiring world (.running body) (.running ahead) after later
  | giveUp : Goes wiring world (.running (.ended .cancelled)) (.leaving .cancelled) wiring world
  | mark {ending : Ending} (own : ending.exit = .finished) :
      Goes wiring world (.running (.ended ending)) (.leaving .finished) wiring.finish.1 world
  | leave (exit : Exit) :
      Goes wiring world (.leaving exit) (.gone exit) wiring.closeInput.closeOutput world

theorem Worker.goes_of_step {worker next : Worker}
    (h : worker.step wiring world = some (next, after, later)) :
    worker.Goes wiring world next after later := by
  unfold step at h
  split at h
  · simp only [Option.some.injEq, Prod.mk.injEq] at h
    obtain ⟨rfl, rfl, rfl⟩ := h
    exact .giveUp
  · rename_i ending hending
    simp only [Option.some.injEq, Prod.mk.injEq] at h
    obtain ⟨rfl, rfl, rfl⟩ := h
    refine .mark ?_
    cases ending with
    | cancelled => exact absurd rfl hending
    | completed => rfl
    | downstreamClosed => rfl
  · obtain ⟨⟨ahead, wiring', world'⟩, hbody, heq⟩ := Option.map_eq_some_iff.mp h
    simp only [Prod.mk.injEq] at heq
    obtain ⟨rfl, rfl, rfl⟩ := heq
    exact .work (Body.goes_of_step hbody)
  · simp only [Option.some.injEq, Prod.mk.injEq] at h
    obtain ⟨rfl, rfl, rfl⟩ := h
    exact .leave _
  · cases h

/-- There are no other steps, and each of them can be taken. -/
theorem Worker.step_eq_some_iff {worker next : Worker} :
    worker.step wiring world = some (next, after, later) ↔
      worker.Goes wiring world next after later := by
  refine ⟨goes_of_step, fun h => ?_⟩
  cases h with
  | @work body ahead _ _ hbody =>
      have hstep := Body.step_of_goes hbody
      have hgoing : ∀ ending, body ≠ .ended ending := by
        rintro ending rfl
        cases hstep
      cases body with
      | ended ending => exact absurd rfl (hgoing ending)
      | _ => simp [step, hstep]
  | giveUp => rfl
  | @mark ending hown =>
      cases ending with
      | cancelled => cases hown
      | completed => rfl
      | downstreamClosed => rfl
  | leave exit => rfl

/-- A worker cannot take a step exactly when it has ended, or waits for a line while
nothing has been cancelled. -/
theorem Worker.step_eq_none_iff {worker : Worker} {wiring : Wiring} {world : World} :
    worker.step wiring world = none ↔ (∃ exit, worker = .gone exit) ∨
      (∃ reader, worker = .running (.waiting reader)) ∧ wiring.cancelled = false ∧
        wiring.isReady = false := by
  constructor
  · intro h
    cases worker with
    | running body =>
        cases body with
        | waiting reader =>
            by_cases hcancelled : wiring.cancelled = true
            · simp [step, Body.step, hcancelled] at h
            · by_cases hready : wiring.isReady = true
              · simp [step, Body.step, hcancelled, hready] at h
              · exact .inr ⟨⟨reader, rfl⟩, by simpa using hcancelled, by simpa using hready⟩
        | receiving reader =>
            simp only [step, Body.step] at h
            split at h <;> cases h
        | reading reader =>
            simp only [step, Body.step] at h
            split at h
            · cases h
            · split at h <;> cases h
        | emitting line next =>
            simp only [step, Body.step] at h
            split at h <;> cases h
        | sending line next =>
            simp only [step, Body.step] at h
            split at h <;> cases h
        | ended ending => cases ending <;> cases h
        | fresh verb => cases h
        | writing line reader => cases h
        | storing place held => cases h
        | closing => cases h
    | leaving exit => cases h
    | gone exit => exact .inl ⟨exit, rfl⟩
  · rintro (⟨exit, rfl⟩ | ⟨⟨reader, rfl⟩, hgoing, hready⟩)
    · rfl
    · simp [step, Body.step, hgoing, hready]

end LineShell
