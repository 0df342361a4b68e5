import LineShell.Program
import LineShell.Proofs.WholeSessions

/-!
One command that is run and waited for, among the workers of its shell, and a session
over the same line alone. Where the session has nothing of its own to write or to
remember it does the same, though it takes a few more actions for it: it prompts, reads
to the end of its lines and remembers none. So each can follow the other along any
schedule.
-/

namespace LineShell

/-- The code that tells whether a line was refused. -/
def Flow.code : Flow → Nat
  | .failed _ => 1
  | .proceed _ | .exit => 0

/-- What a run of one command does next. -/
inductive CommandRun.Phase where
  | asking
  | waiting
  | telling (flow : Flow)
  | draining (code : Nat)
  | ended (code : Nat)
deriving DecidableEq, Repr

/-- A run of one command at some moment. -/
structure CommandRun where
  display : Display
  command : Text
  phase : CommandRun.Phase

namespace CommandRun

def start (shell : Shell) (command : Text) : CommandRun :=
  { display := { shell }, command, phase := .asking }

/-- The next action, where it need not be waited for. -/
def act (state : CommandRun) : Option CommandRun :=
  match state.phase with
  | .asking =>
    some { state with
      display := state.display.become (state.display.shell.accept state.command)
      phase := (state.display.shell.reply? state.command).elim .waiting .telling }
  | .waiting =>
    state.display.shell.finishForeground?.map fun (shell, flow) =>
      { state with display := state.display.become shell, phase := .telling flow }
  | .telling flow =>
    some { state with display := state.display.write flow.told, phase := .draining flow.code }
  | .draining code =>
    state.display.shell.finishBackground?.map fun shell =>
      { state with display := state.display.become shell, phase := .ended code }
  | .ended _ => none

def turn (state : CommandRun) : Turning → Option CommandRun
  | .act => state.act
  | .work place position =>
    match state.phase with
    | .ended _ => none
    | _ => (state.display.work place position).map fun display => { state with display }

/-- The run after a schedule, where that can be followed. -/
def follow (state : CommandRun) (schedule : List Turning) : Option CommandRun :=
  schedule.foldlM turn state

private theorem follow_append (state : CommandRun) (first second : List Turning) :
    state.follow (first ++ second) =
      (state.follow first).bind fun middle => middle.follow second :=
  List.foldlM_append

/-- What may happen next in a run. -/
inductive Goes : CommandRun → CommandRun → Prop
  | work {display next : Display} {command : Text} {phase : Phase} {place position : Nat}
      (going : ∀ code, phase ≠ .ended code) (works : display.work place position = some next) :
      Goes { display, command, phase } { display := next, command, phase }
  | ask (display : Display) (command : Text) :
      Goes { display, command, phase := .asking }
        { display := display.become (display.shell.accept command)
          command
          phase := (display.shell.reply? command).elim .waiting .telling }
  | finish {display : Display} {command : Text} {shell : Shell} {flow : Flow}
      (finished : display.shell.finishForeground? = some (shell, flow)) :
      Goes { display, command, phase := .waiting }
        { display := display.become shell, command, phase := .telling flow }
  | tell (display : Display) (command : Text) (flow : Flow) :
      Goes { display, command, phase := .telling flow }
        { display := display.write flow.told, command, phase := .draining flow.code }
  | release {display : Display} {command : Text} {code : Nat} {shell : Shell}
      (released : display.shell.finishBackground? = some shell) :
      Goes { display, command, phase := .draining code }
        { display := display.become shell, command, phase := .ended code }

variable {state after : CommandRun}

private theorem goes_of_turn {turning : Turning} (h : state.turn turning = some after) :
    state.Goes after := by
  obtain ⟨display, command, phase⟩ := state
  cases turning with
  | work place position =>
      simp only [turn] at h
      split at h
      · cases h
      · rename_i hgoing
        obtain ⟨next, hworks, rfl⟩ := Option.map_eq_some_iff.mp h
        exact .work hgoing hworks
  | act =>
      cases phase with
      | asking =>
          obtain rfl := Option.some.inj h
          exact .ask display command
      | waiting =>
          obtain ⟨⟨shell, flow⟩, hfinished, rfl⟩ := Option.map_eq_some_iff.mp h
          exact .finish hfinished
      | telling flow =>
          obtain rfl := Option.some.inj h
          exact .tell display command flow
      | draining code =>
          obtain ⟨shell, hreleased, rfl⟩ := Option.map_eq_some_iff.mp h
          exact .release hreleased
      | ended code => cases h

/-- What holds at the start and is kept by all that happens holds along every schedule. -/
theorem follow_induction {motive : CommandRun → Prop} (start : motive state)
    (step : ∀ before after, motive before → before.Goes after → motive after)
    {schedule : List Turning} (h : state.follow schedule = some after) : motive after := by
  induction schedule generalizing state with
  | nil =>
      obtain rfl : state = after := Option.some.inj h
      exact start
  | cons turning schedule ih =>
      obtain ⟨next, hturn, hrest⟩ := Option.bind_eq_some_iff.mp h
      exact ih (step state next start (goes_of_turn hturn)) hrest

end CommandRun

/-- Settings with which a session writes and remembers nothing of its own. -/
structure Config.IsQuiet (config : Config) : Prop where
  prompt : config.prompt = []
  banner : config.banner = false
  history : config.history = false

/-! Lines that are the same but for the blanks at their ends. -/

namespace Shell

variable {line other : Text}

private theorem request_congr (h : Text.trim line = Text.trim other) :
    request line = request other := by
  simp only [request, h]

private theorem execute_congr (h : Text.trim line = Text.trim other) (shell : Shell) :
    shell.execute line = shell.execute other := by
  simp only [execute, request_congr h]

theorem processLine_congr (h : Text.trim line = Text.trim other) (shell : Shell) :
    Dialogue.processLine shell line = Dialogue.processLine shell other := by
  simp only [Dialogue.processLine, execute_congr h]

private theorem accept_congr (h : Text.trim line = Text.trim other) (shell : Shell) :
    shell.accept line = shell.accept other := by
  simp only [accept, request_congr h, execute_congr h]

private theorem reply?_congr (h : Text.trim line = Text.trim other) (shell : Shell) :
    shell.reply? line = shell.reply? other := by
  simp only [reply?, foreground?, request_congr h, processLine_congr h]

end Shell

/-! One command beside a session. -/

/-- What a session may be about to do when a command has come to some phase, by the lines
that the session has not read. -/
inductive CommandRun.Phase.Corresponds (line : Text) :
    CommandRun.Phase → List Text → LineShell.Phase → Prop
  | prompt : Corresponds line .asking [line] .prompting
  | read : Corresponds line .asking [line] .reading
  | wait : Corresponds line .waiting [] .waiting
  | tell (flow : Flow) : Corresponds line (.telling flow) [] (.telling flow)
  | promptAgain (code : Nat) : Corresponds line (.draining code) [] .prompting
  | readAgain (code : Nat) : Corresponds line (.draining code) [] .reading
  | save (code : Nat) : Corresponds line (.draining code) [] .saving
  | drain (code : Nat) : Corresponds line (.draining code) [] .draining
  | ended (code : Nat) : Corresponds line (.ended code) [] .ended

/-- A session that does what the run of one command does. -/
structure CommandRun.SimulatedBy (line : Text) (state : CommandRun) (loop : Loop) : Prop where
  display : loop.display = state.display
  command : Text.trim line = Text.trim state.command
  quiet : loop.config.IsQuiet
  forgetful : loop.historyPath = none
  corresponds : state.phase.Corresponds line loop.unread loop.phase
  console : state.display.shell.world.console = []

/-- How many actions a session has still to take before the next one of the command. -/
def Loop.lag (loop : Loop) : Nat :=
  match loop.phase with
  | .prompting => if loop.unread = [] then 3 else 1
  | .reading => if loop.unread = [] then 2 else 0
  | .saving => 1
  | .waiting | .telling _ | .draining | .ended => 0

namespace CommandRun.SimulatedBy

variable {line : Text} {state next : CommandRun} {loop after : Loop}

theorem start {command : Text} {shell : Shell} {config : Config}
    (hline : Text.trim line = Text.trim command) (hquiet : config.IsQuiet)
    (hconsole : shell.world.console = []) (around : Surroundings) :
    SimulatedBy line (.start shell command) (.start shell config around [line]) where
  display := by
    simp [Loop.start, Session.start, Loop.ofSession, CommandRun.start, Session.greeting,
      hquiet.banner]
  command := hline
  quiet := hquiet
  forgetful := by
    simp [Loop.start, Session.start, Loop.ofSession, Config.historyPath?, hquiet.history]
  corresponds := .prompt
  console := hconsole

theorem ended_iff (h : SimulatedBy line state loop) :
    loop.phase = .ended ↔ ∃ code, state.phase = .ended code := by
  have hcorresponds := h.corresponds
  constructor
  · intro hover
    rw [hover] at hcorresponds
    generalize loop.unread = unread, state.phase = phase at hcorresponds ⊢
    cases hcorresponds with
    | ended code => exact ⟨code, rfl⟩
  · rintro ⟨code, hover⟩
    rw [hover] at hcorresponds
    generalize loop.unread = unread, loop.phase = phase at hcorresponds ⊢
    cases hcorresponds
    rfl

/-- A worker takes the same step beside both. -/
theorem work (h : SimulatedBy line state loop) (place position : Nat) :
    Option.Rel (SimulatedBy line) (state.turn (.work place position))
      (loop.turn (.work place position)) := by
  by_cases hover : loop.phase = .ended
  · obtain ⟨code, hcode⟩ := h.ended_iff.mp hover
    simp only [CommandRun.turn, hcode, Loop.turn, hover, if_true]
    exact .none
  · have hstate : state.turn (.work place position) =
        (state.display.work place position).map fun display => { state with display } := by
      have hgoing : ∀ code, state.phase ≠ .ended code := fun code hcode =>
        hover (h.ended_iff.mpr ⟨code, hcode⟩)
      rw [CommandRun.turn]
      split
      · rename_i code hcode
        exact absurd hcode (hgoing code)
      · rfl
    rw [hstate, Loop.turn, if_neg hover, h.display]
    cases hwork : state.display.work place position with
    | none => exact .none
    | some display =>
        obtain ⟨shell, -, rfl⟩ := Option.map_eq_some_iff.mp hwork
        exact .some { h with display := rfl, console := rfl }

/-- An action that the session has ahead of the command changes nothing that is seen. -/
theorem lag_act (h : SimulatedBy line state loop) (hlag : 0 < loop.lag) :
    ∃ after, loop.act = some after ∧ SimulatedBy line state after ∧ after.lag < loop.lag := by
  have hwrite : loop.display.write loop.config.prompt = state.display := by
    rw [h.display, h.quiet.prompt, Display.write, List.append_nil]
  have hfiles (files : FileTree) : loop.session.remember files = files := by
    have hpath : loop.session.historyPath = none := h.forgetful
    rw [Session.remember, hpath]
  have hcorresponds := h.corresponds
  generalize hunread : loop.unread = unread, hphase : loop.phase = phase,
    hstate : state.phase = commandPhase at hcorresponds
  cases hcorresponds with
  | prompt =>
      refine ⟨{ loop with display := loop.display.write loop.config.prompt, phase := .reading },
        by simp only [Loop.act, hphase], { h with display := hwrite, corresponds := ?_ }, ?_⟩
      · rw [hstate, hunread]
        exact .read
      · simp [Loop.lag, hphase, hunread]
  | promptAgain code =>
      refine ⟨{ loop with display := loop.display.write loop.config.prompt, phase := .reading },
        by simp only [Loop.act, hphase], { h with display := hwrite, corresponds := ?_ }, ?_⟩
      · rw [hstate, hunread]
        exact .readAgain code
      · simp [Loop.lag, hphase, hunread]
  | readAgain code =>
      refine ⟨{ loop with phase := .saving }, by simp only [Loop.act, hphase, hunread],
        { h with corresponds := ?_ }, ?_⟩
      · rw [hstate, hunread]
        exact .save code
      · simp [Loop.lag, hphase, hunread]
  | save code =>
      have hsame : loop.display.become loop.display.shell = state.display := by
        rw [h.display, Display.become_shell h.console]
      refine ⟨{ loop with display := state.display, phase := .draining }, ?_,
        { h with display := rfl, corresponds := ?_ }, ?_⟩
      · simp only [Loop.act, hphase, hfiles, Loop.become, hsame]
      · rw [hstate, hunread]
        exact .drain code
      · simp [Loop.lag, hphase]
  | read | wait | tell flow | drain code | ended code =>
      simp [Loop.lag, hphase, hunread] at hlag

/-- Otherwise both do the same next. -/
theorem act (h : SimulatedBy line state loop) (hlag : loop.lag = 0) :
    Option.Rel (SimulatedBy line) state.act loop.act := by
  have hcorresponds := h.corresponds
  generalize hunread : loop.unread = unread, hphase : loop.phase = phase,
    hstate : state.phase = commandPhase at hcorresponds
  cases hcorresponds with
  | read =>
      have haccept := Shell.accept_congr h.command state.display.shell
      have hreply := Shell.reply?_congr h.command state.display.shell
      simp only [CommandRun.act, hstate, Loop.act, hphase, hunread, h.display, haccept, hreply]
      refine .some { h with display := ?_, corresponds := ?_, console := rfl }
      · simp only [Loop.become, h.display]
      · cases state.display.shell.reply? state.command with
        | none => exact .wait
        | some flow => exact .tell flow
  | wait =>
      simp only [CommandRun.act, hstate, Loop.act, hphase, h.display]
      cases state.display.shell.finishForeground? with
      | none => exact .none
      | some finished =>
          refine .some { h with display := ?_, corresponds := ?_, console := rfl }
          · simp only [Loop.become, h.display]
          · simpa only [Loop.become, hunread] using .tell finished.2
  | tell flow =>
      simp only [CommandRun.act, hstate, Loop.act, hphase, h.display]
      refine .some { h with display := rfl, corresponds := ?_ }
      rw [hunread]
      by_cases hexit : flow = .exit
      · simpa only [hexit, if_true] using .save _
      · simpa only [hexit, if_false] using .promptAgain _
  | drain code =>
      have hgreeting : Session.greeting loop.config Session.goodbye = [] := by
        rw [Session.greeting, h.quiet.banner]
        rfl
      simp only [CommandRun.act, hstate, Loop.act, hphase, h.display, hgreeting]
      cases state.display.shell.finishBackground? with
      | none => exact .none
      | some released =>
          refine .some { h with display := ?_, corresponds := ?_, console := rfl }
          · exact congrArg (Display.mk _) (List.append_nil _)
          · simpa only [hunread] using .ended code
  | ended code =>
      simp only [CommandRun.act, hstate, Loop.act, hphase]
      exact .none
  | prompt | promptAgain code | readAgain code | save code =>
      simp [Loop.lag, hphase, hunread] at hlag

/-- Unless the session has to catch up first, the same may happen next to both. -/
theorem turn (h : SimulatedBy line state loop) {turning : Turning}
    (hlag : turning = .act → loop.lag = 0) :
    Option.Rel (SimulatedBy line) (state.turn turning) (loop.turn turning) := by
  cases turning with
  | act => exact h.act (hlag rfl)
  | work place position => exact h.work place position

/-- The session catches up with the command. -/
theorem catch_up (h : SimulatedBy line state loop) :
    ∃ schedule after, loop.follow schedule = some after ∧ SimulatedBy line state after ∧
      after.lag = 0 := by
  -- By the lag, which each action that the session has ahead brings down.
  generalize hrank : loop.lag = rank
  induction rank using Nat.strongRecOn generalizing loop with
  | ind rank ih =>
      by_cases hlag : loop.lag = 0
      · exact ⟨[], loop, rfl, h, hlag⟩
      · obtain ⟨next, hact, hnext, hless⟩ := h.lag_act (Nat.pos_of_ne_zero hlag)
        obtain ⟨schedule, after, hfollow, hafter, hlast⟩ := ih next.lag (hrank ▸ hless) hnext rfl
        refine ⟨.act :: schedule, after, ?_, hafter, hlast⟩
        rw [Loop.follow, List.foldlM_cons, Loop.turn, hact]
        exact hfollow

/-- What the session does the run of one command does too. -/
theorem follow_loop (h : SimulatedBy line state loop) {schedule : List Turning}
    (hfollow : loop.follow schedule = some after) :
    ∃ others next, state.follow others = some next ∧ SimulatedBy line next after := by
  induction schedule generalizing state loop with
  | nil =>
      obtain rfl : loop = after := Option.some.inj hfollow
      exact ⟨[], state, rfl, h⟩
  | cons turning schedule ih =>
      obtain ⟨middle, hturn, hrest⟩ := Option.bind_eq_some_iff.mp hfollow
      -- The command takes the same turn, or none where the session has only caught up.
      have hturned : ∃ first next, state.follow first = some next ∧
          SimulatedBy line next middle := by
        by_cases hlag : turning = .act → loop.lag = 0
        · have hrel := h.turn hlag
          rw [hturn] at hrel
          generalize hnext : state.turn turning = next at hrel
          cases hrel with
          | @some next _ hbetween =>
              refine ⟨[turning], next, ?_, hbetween⟩
              rw [CommandRun.follow, List.foldlM_cons, hnext]
              rfl
        · obtain ⟨rfl, hbehind⟩ := Classical.not_imp.mp hlag
          obtain ⟨ahead, hact, hahead, -⟩ := h.lag_act (Nat.pos_of_ne_zero hbehind)
          obtain rfl : ahead = middle := Option.some.inj (hact.symm.trans hturn)
          exact ⟨[], state, rfl, hahead⟩
      obtain ⟨first, between, hfirst, hbetween⟩ := hturned
      obtain ⟨others, next, hothers, hnext⟩ := ih hbetween hrest
      refine ⟨first ++ others, next, ?_, hnext⟩
      rw [CommandRun.follow_append, hfirst]
      exact hothers

/-- What the run of one command does the session does too. -/
theorem follow_commandRun (h : SimulatedBy line state loop) {schedule : List Turning}
    (hfollow : state.follow schedule = some next) :
    ∃ others after, loop.follow others = some after ∧ SimulatedBy line next after := by
  induction schedule generalizing state loop with
  | nil =>
      obtain rfl : state = next := Option.some.inj hfollow
      exact ⟨[], loop, rfl, h⟩
  | cons turning schedule ih =>
      obtain ⟨middle, hturn, hrest⟩ := Option.bind_eq_some_iff.mp hfollow
      have hturned : ∃ first after, loop.follow first = some after ∧
          SimulatedBy line middle after := by
        obtain ⟨first, ready, hfirst, hready, hlag⟩ := h.catch_up
        have hrel := hready.turn fun _ : turning = .act => hlag
        rw [hturn] at hrel
        generalize hnext : ready.turn turning = next at hrel
        cases hrel with
        | @some _ after hafter =>
            refine ⟨first ++ [turning], after, ?_, hafter⟩
            rw [Loop.follow_append, hfirst, Option.bind_some, Loop.follow, List.foldlM_cons,
              hnext]
            rfl
      obtain ⟨first, between, hfirst, hbetween⟩ := hturned
      obtain ⟨others, after, hothers, hafter⟩ := ih hbetween hrest
      refine ⟨first ++ others, after, ?_, hafter⟩
      rw [Loop.follow_append, hfirst]
      exact hothers

end CommandRun.SimulatedBy

end LineShell
