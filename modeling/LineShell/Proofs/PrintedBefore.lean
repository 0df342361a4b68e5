import LineShell.Proofs.ShellMoves

/-!
What has been printed before. No worker looks at the console, so a step can be taken
whatever is on it, and adds the same to it. The lines may therefore be taken off the
console at any time, as a terminal shows each of them when it is printed.
-/

namespace LineShell

/-- The world in which some lines were printed before those on its console. -/
def World.behind (world : World) (lines : List Text) : World :=
  { world with console := lines ++ world.console }

/-- The shell whose world it is. -/
def Shell.behind (shell : Shell) (lines : List Text) : Shell :=
  { shell with world := shell.world.behind lines }

namespace Worker

private theorem beginsAlike_behind (worker : Worker) (world : World) (lines : List Text) :
    worker.BeginsAlike world (world.behind lines) := by
  intro verb _
  cases verb with
  | redirect path =>
      simp only [Body.start, World.behind]
      cases world.files.openFile? path <;> rfl
  | _ => rfl

private theorem alter_behind (worker : Worker) (world : World) (lines : List Text) :
    worker.alter (world.behind lines) = (worker.alter world).behind lines := by
  cases worker with
  | running body =>
      cases body with
      | fresh verb =>
          cases verb with
          | cd change =>
              cases change with
              | up =>
                  simp only [alter, Body.start, World.changeDirectory, World.behind]
                  cases Path.parent? world.directory <;> rfl
              | _ => rfl
          | redirect path =>
              simp only [alter, Body.start, World.behind]
              cases world.files.openFile? path <;> rfl
          | _ => rfl
      | writing line reader =>
          cases reader with
          | console => simp [alter, Body.writeLine, World.print, World.behind]
          | _ => rfl
      | _ => rfl
  | _ => rfl

end Worker

theorem Run.stepAt_behind (run : Run) (position : Nat) (world : World) (lines : List Text) :
    run.stepAt position (world.behind lines) =
      (run.stepAt position world).map fun (next, later) => (next, later.behind lines) := by
  cases hstep : run.stepAt position world with
  | none => rw [(stepAt_eq_none_iff world _).mp hstep, Option.map_none]
  | some after =>
      obtain ⟨next, later⟩ := after
      obtain ⟨worker, _, -, -, ⟨_, _, hone⟩, helsewhere⟩ := stepAt_elsewhere hstep
      rw [helsewhere _ (worker.beginsAlike_behind world lines), worker.alter_behind,
        ← Worker.alter_of_step hone, Option.map_some]

namespace Shell

variable {shell after : Shell}

private theorem work_behind (shell : Shell) (lines : List Text) (place position : Nat) :
    (shell.behind lines).work place position =
      (shell.work place position).map fun next => next.behind lines := by
  simp only [work, Jobs.work, behind]
  cases hjob : shell.jobs.started[place]? with
  | none => rfl
  | some job =>
      simp only [job.run.stepAt_behind, Option.map_map]
      rfl

theorem follow_behind (shell : Shell) (lines : List Text) (order : List (Nat × Nat)) :
    (shell.behind lines).follow (steps order) =
      (shell.follow (steps order)).map fun next => next.behind lines := by
  induction order generalizing shell with
  | nil => rfl
  | cons first order ih =>
      simp only [steps, List.map_cons, follow, List.foldlM_cons, move, work_behind]
      cases shell.work first.1 first.2 with
      | none => rfl
      | some next => exact ih next

/-- What was taken off the console was printed before. -/
theorem takeConsole_behind (shell : Shell) :
    shell.takeConsole.1.behind shell.takeConsole.2 = shell := by
  simp [takeConsole, behind, World.behind]

theorem takeConsole_of_empty (h : shell.world.console = []) : shell.takeConsole.1 = shell := by
  rw [takeConsole, ← h]

end Shell

end LineShell
