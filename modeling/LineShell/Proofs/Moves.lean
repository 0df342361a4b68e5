import Mathlib.Data.List.Induction
import LineShell.Proofs.StepEffects

/-!
The orders in which a pipeline may run. A move is one step of one worker, or the
firing of the token, which happens once at most. A list of moves that can be
made one after the other is a run, in whatever order its steps come, and what
each worker hands on along it is written down beside it.
-/

namespace LineShell

/-- What may happen next in a pipeline at work. -/
inductive Move where
  | step (position : Nat)
  | cancel
deriving DecidableEq, Repr

namespace Post

/-- What the worker at a position hands on in its next step. -/
def frameSentAt (cancelled : Bool) : Nat → List Post → Option Frame
  | _, [] => none
  | 0, post :: rest => post.worker.frameSent (post.wiring cancelled rest)
  | position + 1, _ :: rest => frameSentAt cancelled position rest

end Post

namespace Run

/-- The pipeline and the world after a move, where it can be made. -/
def move (run : Run) (world : World) : Move → Option (Run × World)
  | .step position => run.stepAt position world
  | .cancel => if run.cancelled then none else some (run.cancel, world)

/-- The pipeline and the world after some moves, where they can be made one after
the other. -/
def follow (run : Run) (world : World) : List Move → Option (Run × World)
  | [] => some (run, world)
  | move :: moves =>
    match run.move world move with
    | some (next, later) => next.follow later moves
    | none => none

/-- What the worker at a position hands on in a move. -/
def framesSent (run : Run) (position : Nat) (move : Move) : List Frame :=
  if move = .step position then (Post.frameSentAt run.cancelled position run.posts).toList
  else []

/-- What is written down at each of some moves, as far as they can be made one after the
other. -/
def collect {α : Type} (note : Run → Move → List α) (run : Run) (world : World) :
    List Move → List α
  | [] => []
  | move :: moves =>
    match run.move world move with
    | some (next, later) => note run move ++ next.collect note later moves
    | none => []

/-- What the worker at a position hands on along some moves. -/
def frames (position : Nat) (run : Run) (world : World) (moves : List Move) : List Frame :=
  run.collect (fun run => run.framesSent position) world moves

variable {run after : Run} {world later : World}

theorem follow_append (run : Run) (world : World) (first second : List Move) :
    run.follow world (first ++ second) =
      (run.follow world first).bind fun (next, later) => next.follow later second := by
  induction first generalizing run world with
  | nil => rfl
  | cons move moves ih =>
      cases hmove : run.move world move with
      | none => simp [follow, hmove]
      | some state => simp [follow, hmove, ih]

theorem follow_concat {moves : List Move} (h : run.follow world moves = some (after, later))
    (move : Move) : run.follow world (moves ++ [move]) = after.move later move := by
  rw [follow_append, h]
  cases hmove : after.move later move with
  | none => simp [follow, hmove]
  | some state => simp [follow, hmove]

theorem collect_concat {α : Type} (note : Run → Move → List α) {moves : List Move}
    (h : run.follow world moves = some (after, later)) {move : Move} {last : Run × World}
    (hlast : after.move later move = some last) :
    run.collect note world (moves ++ [move]) = run.collect note world moves ++ note after move := by
  induction moves generalizing run world with
  | nil =>
      obtain ⟨rfl, rfl⟩ : run = after ∧ world = later := by simpa [follow] using h
      simp [collect, hlast]
  | cons first moves ih =>
      cases hfirst : run.move world first with
      | none => simp [follow, hfirst] at h
      | some state =>
          have hrest : state.1.follow state.2 moves = some (after, later) := by
            simpa [follow, hfirst] using h
          simp [collect, hfirst, ih hrest]

theorem frames_concat {moves : List Move} (h : run.follow world moves = some (after, later))
    {move : Move} {last : Run × World} (hlast : after.move later move = some last)
    (position : Nat) :
    run.frames position world (moves ++ [move]) =
      run.frames position world moves ++ after.framesSent position move :=
  collect_concat _ h hlast

/-- What holds at the start of every run and is kept by every move holds at the
end of every run. -/
theorem follow_induction {motive : List Move → Run → World → Prop} (start : motive [] run world)
    (step : ∀ moves before earlier move after later,
      run.follow world moves = some (before, earlier) → motive moves before earlier →
      before.move earlier move = some (after, later) → motive (moves ++ [move]) after later)
    {moves : List Move} (h : run.follow world moves = some (after, later)) :
    motive moves after later := by
  induction moves using List.reverseRecOn generalizing after later with
  | nil =>
      obtain ⟨rfl, rfl⟩ : run = after ∧ world = later := by simpa [follow] using h
      exact start
  | append_singleton moves move ih =>
      rw [follow_append] at h
      cases hmoves : run.follow world moves with
      | none => simp [hmoves] at h
      | some state =>
          have hmove : state.1.move state.2 move = some (after, later) := by
            rw [← follow_concat hmoves move, follow_append, hmoves]
            simpa [hmoves] using h
          exact step moves state.1 state.2 move after later hmoves (ih hmoves) hmove

/-- A move is a step of one worker, or it fires the token and does nothing else. -/
theorem move_cases {move : Move} (h : run.move world move = some (after, later)) :
    (∃ position posts, move = .step position ∧ after = { run with posts } ∧
      Post.stepAt run.cancelled position run.posts world = some (posts, later)) ∨
    (move = .cancel ∧ run.cancelled = false ∧ after = run.cancel ∧ later = world) := by
  cases move with
  | step position =>
      obtain ⟨⟨posts, world'⟩, hstep, heq⟩ := Option.map_eq_some_iff.mp h
      simp only [Prod.mk.injEq] at heq
      obtain ⟨rfl, rfl⟩ := heq
      exact .inl ⟨position, posts, rfl, rfl, hstep⟩
  | cancel =>
      simp only [Run.move] at h
      split at h
      · cases h
      · rename_i hfresh
        simp only [Option.some.injEq, Prod.mk.injEq] at h
        obtain ⟨rfl, rfl⟩ := h
        exact .inr ⟨rfl, by simpa using hfresh, rfl, rfl⟩

end Run

end LineShell
