import LineShell.Session
import LineShell.Proofs.ExitLines
import LineShell.Proofs.KillLines
import LineShell.Proofs.Reachable

/-!
The read loop among the workers of its shell. Between any two actions of the loop, and
while it waits, the workers of all pipelines may take their steps in any order; a
schedule says which steps are taken when. The loop looks at its input only where it takes
a line, and a session that is run as a whole follows one of the schedules.
-/

namespace LineShell

/-- Whether all workers of a pipeline have ended. -/
def Run.isOver (run : Run) : Bool :=
  run.posts.all fun post => post.worker.exit?.isSome

/-- What the user is told when it is known what follows from a line. -/
def Flow.told : Flow → Text
  | .proceed (some text) | .failed text => text ++ ['\n']
  | .proceed none | .exit => []

namespace Shell

/-- The pipeline that a line runs in the foreground, if it is one that does. -/
def foreground? (shell : Shell) (line : Text) : Option Pipeline :=
  match request line with
  | .pipeline command false =>
    (CommandLine.build shell.world.directory shell.world.files command).2.toOption
  | _ => none

/-- What follows from a line as soon as it is taken. As long as its pipeline runs in the
foreground nothing does. -/
def reply? (shell : Shell) (line : Text) : Option Flow :=
  match shell.foreground? line with
  | some _ => none
  | none => some (Dialogue.processLine shell line).2

/-- The shell when the pipeline in the foreground has come to its end, and what follows
from its line. It is the one that was started last. -/
def finishForeground? (shell : Shell) : Option (Shell × Flow) :=
  match shell.jobs.started.getLast? with
  | some job =>
    if job.run.isOver then
      some ({ shell with jobs := { shell.jobs with started := shell.jobs.started.dropLast } },
        Dialogue.flow
          (.ok (if job.run.result.exitRequested then .exit else .completed job.run.result)))
    else none
  | none => none

/-- The shell when all jobs have come to their end that the registry holds. -/
def finishBackground? (shell : Shell) : Option Shell :=
  if shell.jobs.held.all fun job => job.run.isOver then
    some { shell with jobs := shell.jobs.letGo }
  else none

end Shell

/-- A shell, and all that has been written. The lines on its console are written as they
come, so none of them waits there. -/
structure Display where
  shell : Shell
  written : Text := []

namespace Display

def write (display : Display) (text : Text) : Display :=
  { display with written := display.written ++ text }

/-- The shell has come to another state, and has printed what is on its console there. -/
def become (display : Display) (shell : Shell) : Display :=
  { shell := shell.takeConsole.1
    written := display.written ++ Text.unlines shell.takeConsole.2 }

/-- A worker takes a step. Its job is named by how many were started before it. -/
def work (display : Display) (place position : Nat) : Option Display :=
  (display.shell.work place position).map display.become

@[simp]
theorem jobs_become (display : Display) (shell : Shell) :
    (display.become shell).shell.jobs = shell.jobs := rfl

end Display

/-- What a session does next. -/
inductive Phase where
  | prompting
  | reading
  /-- The pipeline in the foreground has to come to its end. -/
  | waiting
  | telling (flow : Flow)
  | saving
  /-- The pipelines in the background have to come to their end. -/
  | draining
  | ended
deriving DecidableEq, Repr

/-- A session at some moment, with the lines that it has not read yet. -/
structure Loop where
  display : Display
  config : Config
  history : History
  historyPath : Option Text
  unread : List Text
  phase : Phase

/-- What may happen next: the loop acts, or a worker takes a step. -/
inductive Turning where
  | act
  | work (place position : Nat)
deriving DecidableEq, Repr

namespace Loop

def session (loop : Loop) : Session :=
  { shell := loop.display.shell
    config := loop.config
    history := loop.history
    historyPath := loop.historyPath }

def ofSession (session : Session) (written : Text) (unread : List Text) (phase : Phase) : Loop :=
  { display := { shell := session.shell, written }
    config := session.config
    history := session.history
    historyPath := session.historyPath
    unread
    phase }

/-- A session that has just begun. -/
def start (shell : Shell) (config : Config) (around : Surroundings) (lines : List Text) : Loop :=
  let (session, opening) := Session.start shell config around
  ofSession session opening lines .prompting

/-- The loop when its shell has come to another state. -/
def become (loop : Loop) (shell : Shell) : Loop :=
  { loop with display := loop.display.become shell }

/-- The next action of the loop, if it need not wait for one. -/
def act (loop : Loop) : Option Loop :=
  match loop.phase with
  | .prompting =>
    some { loop with display := loop.display.write loop.config.prompt, phase := .reading }
  | .reading =>
    match loop.unread with
    | [] => some { loop with phase := .saving }
    | line :: unread =>
      some { loop.become (loop.display.shell.accept line) with
        history := if Text.allBlank line then loop.history else loop.history.add line
        unread
        phase := (loop.display.shell.reply? line).elim .waiting .telling }
  | .waiting =>
    loop.display.shell.finishForeground?.map fun (shell, flow) =>
      { loop.become shell with phase := .telling flow }
  | .telling flow =>
    some { loop with
      display := loop.display.write flow.told
      phase := if flow = .exit then .saving else .prompting }
  | .saving =>
    let shell := loop.display.shell
    let files := loop.session.remember shell.world.files
    some { loop.become { shell with world := { shell.world with files } } with
      phase := .draining }
  | .draining =>
    loop.display.shell.finishBackground?.map fun shell =>
      { loop with
        display := (loop.display.become shell).write
          (Session.greeting loop.config Session.goodbye)
        phase := .ended }
  | .ended => none

def turn (loop : Loop) : Turning → Option Loop
  | .act => loop.act
  | .work place position =>
    if loop.phase = .ended then none
    else (loop.display.work place position).map fun display => { loop with display }

/-- The session after a schedule, where it can be followed. -/
def follow (loop : Loop) (schedule : List Turning) : Option Loop :=
  schedule.foldlM turn loop

/-- The steps of workers alone. -/
def works (order : List (Nat × Nat)) : List Turning :=
  order.map fun (place, position) => .work place position

theorem follow_append (loop : Loop) (first second : List Turning) :
    loop.follow (first ++ second) = (loop.follow first).bind fun middle => middle.follow second :=
  List.foldlM_append

/-! What the loop has not read yet. -/

variable {loop next : Loop} {turning : Turning}

def withUnread (loop : Loop) (unread : List Text) : Loop :=
  { loop with unread }

/-- Whether something that may happen next is that the loop takes a line. -/
def Takes (loop : Loop) (turning : Turning) : Prop :=
  loop.phase = .reading ∧ turning = .act

/-- Whatever else happens, it does not depend on what has not been read. -/
theorem turn_withUnread (htakes : ¬ loop.Takes turning) (unread : List Text) :
    (loop.withUnread unread).turn turning =
      (loop.turn turning).map fun next => next.withUnread unread := by
  cases turning with
  | act =>
      cases hnow : loop.phase with
      | reading => exact absurd ⟨hnow, rfl⟩ htakes
      | waiting | draining =>
          simp only [turn, act, withUnread, hnow, Option.map_map]
          rfl
      | saving =>
          simp only [turn, act, withUnread, hnow, Option.map_some]
          rfl
      | prompting | telling flow | ended =>
          simp only [turn, act, withUnread, hnow, Option.map_some, Option.map_none]
  | work place position =>
      by_cases hover : loop.phase = .ended
      · simp [turn, withUnread, hover]
      · simp only [turn, withUnread, hover, if_false, Option.map_map]
        rfl

private theorem unread_of_turn (htakes : ¬ loop.Takes turning) (h : loop.turn turning = some next) :
    next.unread = loop.unread := by
  have hsame := turn_withUnread htakes loop.unread
  rw [show loop.withUnread loop.unread = loop from rfl, h, Option.map_some] at hsame
  have hunread := congrArg unread (Option.some.inj hsame)
  exact hunread

/-! On the way to the end. -/

/-- Whether a line has ended the session, though its pipeline may still have to come to its
end. -/
def Leaves (loop : Loop) : Prop :=
  match loop.phase with
  | .waiting =>
    (loop.display.shell.jobs.started.map fun job => job.run.exitRequested).getLast? = some true
  | .telling flow => flow = .exit
  | .saving | .draining | .ended => True
  | .prompting | .reading => False

private theorem Leaves.not_takes (h : loop.Leaves) (turning : Turning) : ¬ loop.Takes turning := by
  rintro ⟨hphase, -⟩
  simp [Leaves, hphase] at h

private theorem exitRequested_of_work {display after : Display} {place position : Nat}
    (h : display.work place position = some after) :
    (after.shell.jobs.started.map fun job => job.run.exitRequested) =
      display.shell.jobs.started.map fun job => job.run.exitRequested := by
  obtain ⟨shell, hwork, rfl⟩ := Option.map_eq_some_iff.mp h
  obtain ⟨job, run, world, hjob, hstep, rfl⟩ := Shell.work_cases hwork
  have hmove : job.run.follow display.shell.world [.step position] = some (run, world) := by
    simp [Run.follow, Run.move, hstep]
  exact Jobs.map_set_of_getElem? hjob (Run.exitRequested_of_follow hmove)

private theorem Leaves.turn (h : loop.Leaves) (hturn : loop.turn turning = some next) :
    next.Leaves := by
  cases turning with
  | work place position =>
      simp only [Loop.turn] at hturn
      split at hturn
      · cases hturn
      · obtain ⟨display, hwork, rfl⟩ := Option.map_eq_some_iff.mp hturn
        have hsame := exitRequested_of_work hwork
        cases hphase : loop.phase <;> simp_all [Leaves]
  | act =>
      simp only [Loop.turn, act] at hturn
      cases hphase : loop.phase with
      | prompting | reading => simp [Leaves, hphase] at h
      | waiting =>
          simp only [hphase] at hturn
          obtain ⟨⟨shell, flow⟩, hfinish, rfl⟩ := Option.map_eq_some_iff.mp hturn
          simp only [Leaves, hphase, List.getLast?_map] at h
          obtain ⟨job, hjob, hexit⟩ := Option.map_eq_some_iff.mp h
          simp only [Shell.finishForeground?, hjob, Run.result, hexit] at hfinish
          split at hfinish
          · obtain ⟨-, rfl⟩ := Prod.mk.inj (Option.some.inj hfinish)
            rfl
          · cases hfinish
      | telling flow =>
          obtain rfl : flow = .exit := by simpa [Leaves, hphase] using h
          simp only [hphase, Option.some.injEq] at hturn
          subst hturn
          simp [Leaves]
      | saving =>
          simp only [hphase, Option.some.injEq] at hturn
          subst hturn
          simp [Leaves]
      | draining =>
          simp only [hphase] at hturn
          obtain ⟨shell, -, rfl⟩ := Option.map_eq_some_iff.mp hturn
          simp [Leaves]
      | ended =>
          rw [hphase] at hturn
          cases hturn

private theorem leaves_of_endsSession {line : Text} {rest : List Text}
    (hline : Shell.EndsSession line)
    (hphase : loop.phase = .reading) (hunread : loop.unread = line :: rest)
    (hact : loop.act = some next) : next.Leaves ∧ next.unread = rest := by
  simp only [act, hphase, hunread, Option.some.injEq] at hact
  subst hact
  refine ⟨?_, rfl⟩
  have hexit := Shell.execute_of_endsSession hline loop.display.shell
  rcases hline.word_or_plain with hword | hplain
  · have hrequest : Shell.request line = .exit := by
      simp [Shell.request, hword, show Shell.exitWord ≠ [] by decide]
    have hreply : loop.display.shell.reply? line = some .exit := by
      simp only [Shell.reply?, Shell.foreground?, hrequest, Dialogue.processLine, hexit,
        Dialogue.flow]
    simp [Leaves, hreply]
  · let world := loop.display.shell.world
    have hbuild := CommandLine.build_of_exit hline world.directory world.files
    have hreply : loop.display.shell.reply? line = none := by
      simp only [Shell.reply?, Shell.foreground?, hplain.request, world, hbuild]
      rfl
    simp only [Leaves, hreply, Option.elim_none, become, Display.jobs_become, Shell.accept,
      hplain.request, world, hbuild, Shell.enterForeground, List.map_append, List.map_singleton,
      List.getLast?_concat]
    rfl

/-- How far a session can have come before the lines behind one that ends it: that line is
still to be read, or the session leaves. -/
def Before (loop : Loop) (line : Text) (left : List Text) : Prop :=
  (∃ front, left = front ++ [line]) ∨ left = [] ∧ loop.Leaves

private theorem Before.turn {line : Text} {left rest : List Text} (h : loop.Before line left)
    (hline : Shell.EndsSession line) (hunread : loop.unread = left ++ rest)
    (hturn : loop.turn turning = some next) :
    ∃ later, next.unread = later ++ rest ∧ next.Before line later ∧
      ∀ more, (loop.withUnread (left ++ more)).turn turning =
        some (next.withUnread (later ++ more)) := by
  by_cases htakes : loop.Takes turning
  · rcases h with ⟨front, rfl⟩ | ⟨-, hleaves⟩
    · obtain ⟨hphase, rfl⟩ := htakes
      cases front with
      | nil =>
          obtain ⟨hleaves, hrest⟩ := leaves_of_endsSession hline hphase hunread hturn
          refine ⟨[], hrest, .inr ⟨rfl, hleaves⟩, fun more => ?_⟩
          simp only [Loop.turn, act, hphase, hunread, List.nil_append, List.singleton_append,
            Option.some.injEq] at hturn
          subst hturn
          simp only [Loop.turn, act, withUnread, hphase, List.nil_append, List.singleton_append]
          rfl
      | cons first front =>
          simp only [Loop.turn, act, hphase, hunread, List.cons_append, Option.some.injEq] at hturn
          subst hturn
          refine ⟨front ++ [line], rfl, .inl ⟨front, rfl⟩, fun more => ?_⟩
          simp only [Loop.turn, act, withUnread, hphase, List.cons_append]
          rfl
    · exact absurd htakes (hleaves.not_takes turning)
  · refine ⟨left, (unread_of_turn htakes hturn).trans hunread, ?_, fun more => ?_⟩
    · rcases h with hahead | ⟨hread, hleaves⟩
      · exact .inl hahead
      · exact .inr ⟨hread, hleaves.turn hturn⟩
    · rw [turn_withUnread htakes, hturn, Option.map_some]

/-- Along every schedule a session comes as far whatever stands behind a line that ends it,
and none of the lines behind it is read. -/
theorem Before.follow {line : Text} {left rest : List Text} (h : loop.Before line left)
    (hline : Shell.EndsSession line) (hunread : loop.unread = left ++ rest)
    {schedule : List Turning} {after : Loop} (hfollow : loop.follow schedule = some after) :
    ∃ later, after.unread = later ++ rest ∧
      ∀ more, (loop.withUnread (left ++ more)).follow schedule =
        some (after.withUnread (later ++ more)) := by
  -- What the loop has still to read before the end is another prefix at each turn.
  induction schedule generalizing loop left with
  | nil =>
      obtain rfl : loop = after := by simpa [Loop.follow] using hfollow
      exact ⟨left, hunread, fun more => rfl⟩
  | cons turning schedule ih =>
      obtain ⟨next, hturn, hrest⟩ := Option.bind_eq_some_iff.mp hfollow
      obtain ⟨later, hnext, hbefore, hother⟩ := h.turn hline hunread hturn
      obtain ⟨last, hlast, hall⟩ := ih hbefore hnext hrest
      refine ⟨last, hlast, fun more => ?_⟩
      have hmore := hall more
      rw [Loop.follow] at hmore ⊢
      rw [List.foldlM_cons, hother]
      exact hmore

end Loop

/-- Surroundings that give nothing but the home directory of the account. -/
def Sample.around : Surroundings := { accountHome := "/".toList }

end LineShell
