import LineShell.Proofs.Background
import LineShell.Proofs.Deliveries
import LineShell.Proofs.RejoinedPieces

/-!
Lines that end the session. Two ways lead to the end: the word alone, and a pipeline in
the foreground that is made of it, which is what the word becomes when marks follow it.
Of all lines these are the only ones, and either way nothing else happens.
-/

namespace LineShell

namespace CommandLine

variable {directory line : Text} {tree cleared : FileTree} {pipeline : Pipeline}

/-- The stages of the pipeline that asks for the end of the session. -/
def exitStages : List Stage :=
  [{ command := "exit".toList, verb := .exit }]

private theorem eq_append_replicate (text : Text) :
    ∃ count, text = dropEndMarks text ++ List.replicate count '|' := by
  have hmarks : ∀ c ∈ text.rtakeWhile (· == '|'), c = '|' := by
    intro c hc
    simpa using List.mem_rtakeWhile_imp hc
  refine ⟨(text.rtakeWhile (· == '|')).length, ?_⟩
  rw [← List.eq_replicate_of_mem hmarks, dropEndMarks, List.rdropWhile_append_rtakeWhile]

/-- Apart from blanks and marks such a line has nothing but the letters of the word. -/
theorem mem_of_exit (h : Text.trim (dropEndMarks line) = "exit".toList) {c : Char}
    (hc : c ∈ line) (hmark : c ≠ '|') (hfilled : Text.isBlank c = false) :
    c ∈ "exit".toList := by
  obtain ⟨count, hline⟩ := eq_append_replicate line
  rw [hline, List.mem_append] at hc
  rcases hc with hfront | hend
  · exact h ▸ Text.mem_trim_of_mem hfront hfilled
  · exact absurd (List.mem_replicate.mp hend).2 hmark

private theorem segmented_of_exit (h : Text.trim (dropEndMarks line) = "exit".toList) :
    Segmented line [dropEndMarks line] := by
  have hfree : '|' ∉ dropEndMarks line := by
    intro hmem
    have hword := Text.mem_trim_of_mem hmem (by decide)
    rw [h] at hword
    exact absurd hword (by decide)
  exact {
    nonempty := List.cons_ne_nil _ _
    free := List.forall_mem_singleton.mpr hfree
    last := fun hlast => hfree (List.mem_of_getLast? hlast)
    rebuilt := eq_append_replicate line }

private theorem accepted_exit (h : Text.trim (dropEndMarks line) = "exit".toList) (directory : Text)
    (tree : FileTree) : Accepted directory tree line tree exitStages := by
  have hplain : '>' ∉ line := fun hmem =>
    absurd (mem_of_exit h hmem (by decide) (by decide)) (by decide)
  have hnone : ¬ ∃ user after, LastRedirect line user after := by
    rintro ⟨user, after, hline, -⟩
    exact hplain (by simp [hline])
  obtain ⟨count, hline⟩ := eq_append_replicate line
  have hsegment : '>' ∉ dropEndMarks line := fun hmem =>
    hplain (hline ▸ List.mem_append_left _ hmem)
  have haccepted : Accepted directory tree line tree
      (Stage.rowFrom false [(Text.trim (dropEndMarks line), .exit)]) :=
    .solitary hnone (segmented_of_exit h) hsegment (h ▸ .exit)
  rwa [h] at haccepted

theorem build_of_exit (h : Text.trim (dropEndMarks line) = "exit".toList) (directory : Text)
    (tree : FileTree) :
    build directory tree line = (tree, .ok { command := Text.trim line, stages := exitStages }) :=
  build_of_accepted (accepted_exit h directory tree)

private theorem SolitaryCommand.eq_exit {command : Text}
    (h : SolitaryCommand directory tree command .exit) : command = "exit".toList := by
  cases h
  rfl

/-- A pipeline that asks for the end of the session has no other stage, and its line has
nothing but the word. -/
theorem exit_of_build (hbuild : build directory tree line = (cleared, .ok pipeline))
    (hexit : pipeline.requestsExit = true) :
    pipeline.stages = exitStages ∧ Text.trim (dropEndMarks line) = "exit".toList := by
  have hverbs : pipeline.stages.map Stage.verb = [.exit] := by
    rw [(row_of_build hbuild).1.requestsExit, decide_eq_true_iff] at hexit
    exact hexit
  generalize hstages : pipeline.stages = stages at hverbs ⊢
  have haccepted := (accepted_of_build hbuild).1
  rw [hstages] at haccepted
  cases haccepted with
  | @solitary segment verb _ hsegmented _ hcommand =>
      obtain rfl : verb = .exit := by simpa [Stage.map_verb_rowFrom] using hverbs
      have hword := hcommand.eq_exit
      refine ⟨by rw [hword]; rfl, ?_⟩
      rw [hsegmented.dropEndMarks]
      exact hword
  | row => simp [Stage.map_verb_rowFrom] at hverbs

theorem requestsExit_iff (hbuild : build directory tree line = (cleared, .ok pipeline)) :
    pipeline.requestsExit = true ↔ pipeline.stages = exitStages := by
  constructor
  · exact fun hexit => (exit_of_build hbuild hexit).1
  · intro hstages
    rw [Pipeline.requestsExit, hstages]
    rfl

end CommandLine

namespace Run

variable {pipeline : Pipeline} {world later : World} {moves : List Move} {after : Run}

/-- Whatever its worker does, the world stays as it is. -/
theorem world_of_exitStages (hstages : pipeline.stages = CommandLine.exitStages)
    (hfollow : (start pipeline).follow world moves = some (after, later)) : later = world := by
  have hbegins : Begins world ([] ++ [.exit]) (start pipeline) := by
    refine ⟨.solitary rfl, ?_, rfl⟩
    rw [start, hstages]
    rfl
  obtain ⟨worker, -, hwrites⟩ := hbegins.writes rfl hfollow
  rcases hwrites.world_of_solitary rfl with hsame | heffect
  · exact hsame
  · rwa [Verb.effect_exit] at heffect

/-- The end is asked for from the start on, or never. -/
theorem exitRequested_result (hfollow : (start pipeline).follow world moves = some (after, later)) :
    after.result.exitRequested = pipeline.requestsExit :=
  exitRequested_of_follow hfollow

end Run

namespace Shell

variable {line : Text} {shell : Shell}

/-- A line that ends the session: without the blanks at its ends, the `|` at its end and
the blanks before these, it is the word. -/
def EndsSession (line : Text) : Prop :=
  Text.trim (CommandLine.dropEndMarks (Text.trim line)) = exitWord

instance : DecidablePred EndsSession := fun line =>
  inferInstanceAs (Decidable (Text.trim (CommandLine.dropEndMarks (Text.trim line)) = exitWord))

private theorem endsSession_of_word (h : Text.trim line = exitWord) : EndsSession line := by
  rw [EndsSession, h]
  decide

/-- Such a line is the word, or it asks for a pipeline in the foreground. -/
theorem EndsSession.word_or_plain (h : EndsSession line) :
    Text.trim line = exitWord ∨ Plain line := by
  by_cases hword : Text.trim line = exitWord
  · exact .inl hword
  obtain ⟨count, hline⟩ := CommandLine.eq_append_replicate (Text.trim line)
  have hlast : (Text.trim line).getLast? = some '|' := by
    cases count with
    | zero =>
        rw [List.replicate_zero, List.append_nil] at hline
        exact absurd (by rw [← Text.trim_trim, hline]; exact h) hword
    | succ count =>
        rw [hline, List.replicate_succ', ← List.append_assoc, List.getLast?_concat]
  have hkill : CommandLine.hasWord (Text.trim line) killWord = false := by
    rw [Bool.eq_false_iff]
    intro hkill
    have hletter : 'k' ∈ Text.trim line := by
      rcases CommandLine.hasWord_iff.mp hkill with hsame | ⟨rest, hsame⟩ <;>
        simp [hsame, killWord]
    exact absurd (CommandLine.mem_of_exit h hletter (by decide) (by decide)) (by decide)
  refine .inr ⟨?_, ?_, hword, ?_, hkill⟩
  · intro hnone
    simp [hnone] at hlast
  · rw [hlast]
    decide
  · intro hjobs
    rw [hjobs] at hlast
    exact absurd hlast (by decide)

/-- The pipeline that ends the session does nothing to the world. -/
theorem runForeground_exit (shell : Shell) {pipeline : Pipeline}
    (hstages : pipeline.stages = CommandLine.exitStages) :
    shell.runForeground pipeline = (shell, .exit) := by
  obtain ⟨order, hfollow⟩ := (Run.start pipeline).follow_settle shell.world
  have hrequests : pipeline.requestsExit = true := by
    rw [Pipeline.requestsExit, hstages]
    rfl
  rw [runForeground]
  generalize (Run.start pipeline).settle shell.world = settled at hfollow ⊢
  simp only [Run.exitRequested_result hfollow, Run.world_of_exitStages hstages hfollow,
    hrequests, if_true]

theorem execute_of_endsSession (h : EndsSession line) (shell : Shell) :
    shell.execute line = (shell, .ok .exit) := by
  rcases h.word_or_plain with hword | hplain
  · have hrequest : request line = .exit := by
      simp [request, hword, show exitWord ≠ [] by decide]
    simp only [execute, hrequest]
  · have hbuild := CommandLine.build_of_exit h shell.world.directory shell.world.files
    rw [execute_of_request hplain.request, (runPipeline_of_ok hbuild).1, runForeground_exit]
    rfl

private theorem command_of_request {command : Text} (h : request line = .pipeline command false) :
    command = Text.trim line := by
  simp only [request, splitBackground] at h
  split_ifs at h <;> simp_all

/-- No other line ends the session. -/
theorem endsSession_of_execute (h : (shell.execute line).2 = .ok .exit) : EndsSession line := by
  cases hrequest : request line with
  | exit =>
      simp only [request] at hrequest
      split_ifs at hrequest with _ hword
      exact endsSession_of_word hword
  | nothing | jobs | lone text =>
      simp [execute, hrequest] at h
  | kill index =>
      simp only [execute, hrequest, kill] at h
      split at h
      · cases h
      · rename_i position _
        cases hkilled : (shell.jobs.kill position).2 <;> simp [hkilled, Except.map] at h
  | pipeline command background =>
      rw [execute_of_request hrequest] at h
      rcases hbuild : CommandLine.build shell.world.directory shell.world.files command with
        ⟨files, error | pipeline⟩
      · rw [runPipeline_of_error hbuild] at h
        cases h
      · cases background with
        | true =>
            rw [(runPipeline_of_ok hbuild).2] at h
            cases h
        | false =>
            rw [(runPipeline_of_ok hbuild).1] at h
            obtain rfl := command_of_request hrequest
            refine (CommandLine.exit_of_build hbuild ?_).2
            simp only [runForeground, Except.ok.injEq] at h
            split at h
            · assumption
            · cases h

end Shell

end LineShell
