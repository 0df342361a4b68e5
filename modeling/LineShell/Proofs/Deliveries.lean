import LineShell.Proofs.Outcomes

/-!
What a pipeline delivers that nobody cancels. The lines of its source are told by
the file tree alone, each filter is a function on lists of lines, and what these
make of the lines of the source is printed, or stored in a new file, or at the end of a
file that could not be removed, or dropped where no file can be opened.
-/

namespace LineShell

/-- What the verbs of a pipeline make of a world: the lines that come to the last of
them, and the world when they have come. -/
inductive Delivered (world : World) : List Verb → List Text → World → Prop
  | exited : Delivered world [.exit] [] world
  | moved (change : DirectoryChange) :
      Delivered world [.cd change] [] (world.changeDirectory change)
  | printed {source : Verb} {filters : List Verb} {lines : List Text}
      (reads : SourceLines world source lines)
      (passes : ∀ filter ∈ filters, filter.isFilter = true) :
      Delivered world (source :: filters ++ [.print]) (Verb.passAll filters lines)
        { world with console := world.console ++ Verb.passAll filters lines }
  | stored {source : Verb} {filters : List Verb} {lines : List Text} {path : Text} {place : Place}
      {before : Bytes} (reads : SourceLines world source lines)
      (passes : ∀ filter ∈ filters, filter.isFilter = true)
      (receives : world.files.Receives path place before) :
      Delivered world (source :: filters ++ [.redirect path]) (Verb.passAll filters lines)
        { world with
          files := world.files.insert place
            (.file (before ++ Text.encode (Text.unlines (Verb.passAll filters lines)))) }
  | dropped {source : Verb} {filters : List Verb} {lines : List Text} {path : Text}
      (reads : SourceLines world source lines)
      (passes : ∀ filter ∈ filters, filter.isFilter = true)
      (closed : ∀ place before, ¬ world.files.Receives path place before) :
      Delivered world (source :: filters ++ [.redirect path]) (Verb.passAll filters lines) world

/-- A verb that stands alone delivers at once. -/
theorem Delivered.of_isSolitary {verb : Verb} (h : verb.isSolitary = true) (world : World)
    (lines : List Text) : Delivered world [verb] [] (verb.effect world lines) := by
  cases verb with
  | cd change =>
      rw [Verb.effect_cd]
      exact .moved change
  | exit =>
      rw [Verb.effect_exit]
      exact .exited
  | _ => cases h

/-- What a pipeline delivers is settled by the world before it. -/
theorem Delivered.unique {world later last : World} {verbs : List Verb} {lines others : List Text}
    (h : Delivered world verbs lines later) (hother : Delivered world verbs others last) :
    lines = others ∧ later = last := by
  generalize hverbs : verbs = row at hother
  cases h with
  | exited =>
      cases hother with
      | exited => exact ⟨rfl, rfl⟩
      | _ => simp at hverbs
  | moved change =>
      cases hother with
      | moved =>
          obtain rfl : change = _ := by simpa using hverbs
          exact ⟨rfl, rfl⟩
      | _ => simp at hverbs
  | printed hreads =>
      cases hother with
      | printed hothers =>
          obtain ⟨rfl, rfl⟩ : _ = _ ∧ _ = _ := by simpa using hverbs
          obtain rfl := hreads.unique hothers
          exact ⟨rfl, rfl⟩
      | _ => simp at hverbs
  | stored hreads _ hreceives =>
      cases hother with
      | stored hothers _ hreceived =>
          obtain ⟨rfl, rfl, rfl⟩ : _ = _ ∧ _ = _ ∧ _ = _ := by simpa using hverbs
          obtain rfl := hreads.unique hothers
          obtain ⟨rfl, rfl⟩ := hreceives.unique hreceived
          exact ⟨rfl, rfl⟩
      | dropped _ _ hclosed =>
          obtain ⟨-, -, rfl⟩ : _ = _ ∧ _ = _ ∧ _ = _ := by simpa using hverbs
          exact absurd hreceives (hclosed _ _)
      | _ => simp at hverbs
  | dropped hreads _ hclosed =>
      cases hother with
      | stored _ _ hreceives =>
          obtain ⟨-, -, rfl⟩ : _ = _ ∧ _ = _ ∧ _ = _ := by simpa using hverbs
          exact absurd hreceives (hclosed _ _)
      | dropped hothers =>
          obtain ⟨rfl, rfl, -⟩ : _ = _ ∧ _ = _ ∧ _ = _ := by simpa using hverbs
          obtain rfl := hreads.unique hothers
          exact ⟨rfl, rfl⟩
      | _ => simp at hverbs

namespace Begins

variable {world later : World} {verbs : List Verb} {run after : Run} {moves : List Move}

end Begins

/-- A pipeline asks for the end of the session when it is `exit` alone. -/
theorem Row.requestsExit {tree : FileTree} {pipeline : Pipeline} (h : Row tree pipeline.verbs) :
    pipeline.requestsExit = decide (pipeline.verbs = [.exit]) := by
  rw [Bool.eq_iff_iff, decide_eq_true_iff, ← h.exit_iff, Pipeline.requestsExit,
    List.any_eq_true, Pipeline.verbs, List.mem_map]
  simp only [decide_eq_true_eq]

end LineShell
