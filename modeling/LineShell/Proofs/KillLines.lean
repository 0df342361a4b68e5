import LineShell.Proofs.Numerals
import LineShell.Proofs.Refusals

/-!
Lines that kill a job. What is left of a line without its blanks and its mark decides
whether it is one, and the number behind the word decides about the job: how it is
written does not matter as long as it stands for a number that fits into 64 bits, and
that number counts the jobs that have not ended yet. Of all the lines that a shell may
take no other puts an end to a job.
-/

namespace LineShell

/-! The registry of a shell. -/

namespace Jobs

variable {turns : List Turn} {jobs after : Jobs} {id position : Nat}

/-- A history goes on with whatever can happen next. -/
theorem History.next {answer : JobsAnswer} (h : History turns jobs) (event : JobsEvent)
    (world : World) (happens : jobs.handle world event = some (after, answer)) :
    ∃ more, History (turns ++ more) after :=
  ⟨_, h.turn happens⟩

/-- A job that is taken in is the last one that a listing shows, unless it has ended. -/
theorem live_register (run : Run) :
    (jobs.register run).1.live =
      jobs.live ++ if run.isFinished then [] else [{ id := jobs.nextId, run }] := by
  have hheld : (jobs.register run).1.held = jobs.held ++ [{ id := jobs.nextId, run }] := by
    simp [register, held]
  rw [live, hheld, List.filter_append]
  cases hfinished : run.isFinished <;> simp [hfinished, live]

private theorem runs_register (run : Run) :
    (jobs.register run).1.runs = jobs.runs ++ [(jobs.nextId, run)] := by
  simp [register, runs]

/-- To kill a job is to drop the jobs that have ended, and then to let go of the one that
the position names among the others. -/
theorem kill_of_live {job : Job} (hcounted : 1 ≤ position)
    (hjob : jobs.live[position - 1]? = some job) :
    jobs.kill position = (jobs.prune.release job.id,
      .ok { id := job.id, position, command := job.run.command, status := .killed }) := by
  have hzero : position ≠ 0 := by omega
  simp [kill, hzero, held_prune, hjob, Job.info, Run.cancel]

private theorem kill_of_unlisted (h : position = 0 ∨ jobs.live.length < position) :
    jobs.kill position = (jobs.prune, .error (.noSuchJob position)) := by
  by_cases hzero : position = 0
  · simp [kill, hzero]
  · have hbeyond : jobs.live[position - 1]? = none := List.getElem?_eq_none_iff.mpr (by omega)
    simp [kill, hzero, held_prune, hbeyond]

end Jobs

namespace Shell

open Text (Numeral)

variable {line command argument : Text} {shell : Shell} {outcome : Except ShellError Outcome}

/-! Lines and their commands. -/

/-- What a line consists of apart from the blanks at its ends and one mark at its end,
which may have blanks before it. -/
inductive CommandOf (line : Text) : Text → Prop
  | marked {front : Text} (ends : Text.trim line = front ++ ['&']) :
      CommandOf line (Text.trim front)
  | unmarked (ends : ∀ front, Text.trim line ≠ front ++ ['&']) :
      CommandOf line (Text.trim line)

/-- A line that is to kill a job, with the text that is to name the job. -/
inductive KillLine (line : Text) : Text → Prop
  | bare (command : CommandOf line killWord) : KillLine line []
  | named {rest : Text} (command : CommandOf line (killWord ++ ' ' :: rest)) :
      KillLine line (Text.trim rest)

/-- What a shell answers when it is to kill the job that a text names, and how it is left.
Only a number that stands for a job does anything to one. -/
inductive KillAnswer (shell : Shell) (argument : Text) :
    Except ShellError Outcome → Shell → Prop
  | noNumber (none : ∀ n, Numeral argument n → 2 ^ 64 ≤ n) :
      KillAnswer shell argument (.error (.invalidJobIndex argument)) shell
  | noJob {n : Nat} (number : Numeral argument n) (fits : n < 2 ^ 64)
      (unlisted : n = 0 ∨ shell.jobs.live.length < n) :
      KillAnswer shell argument (.error (.noSuchJob n)) { shell with jobs := shell.jobs.prune }
  | killed {n : Nat} {job : Job} {jobs : Jobs} (number : Numeral argument n)
      (fits : n < 2 ^ 64) (counted : 1 ≤ n) (there : shell.jobs.live[n - 1]? = some job)
      (runs : jobs.runs = shell.jobs.runs.map fun (id, run) =>
        (id, if id = job.id then run.cancel else run))
      (held : jobs.held = shell.jobs.live.filter fun other => other.id ≠ job.id) :
      KillAnswer shell argument
        (.ok (.killed
          { id := job.id, position := n, command := job.run.command, status := .killed }))
        { shell with jobs }

/-- What every line but those that kill a job leaves to the jobs there are: they have done
nothing and go on as before, and what has been added to them goes on too. -/
structure LeavesJobs (shell after : Shell) : Prop where
  runs : ∃ new, after.jobs.runs = shell.jobs.runs ++ new ∧
    ∀ started ∈ new, started.2.cancelled = false
  live : ∀ job ∈ shell.jobs.live, job ∈ after.jobs.live

private theorem commandOf_iff :
    CommandOf line command ↔ (splitBackground (Text.trim line)).1 = command := by
  unfold splitBackground
  constructor
  · rintro (⟨hends⟩ | ⟨hends⟩)
    · simp [hends]
    · have hlast : (Text.trim line).getLast? ≠ some '&' := fun hmark =>
        hends _ (List.dropLast_append_getLast? '&' hmark).symm
      rw [if_neg hlast]
  · rintro rfl
    split
    · rename_i hmark
      exact .marked (List.dropLast_append_getLast? '&' hmark).symm
    · rename_i hmark
      exact .unmarked fun front hends => hmark (by simp [hends])

/-- The text behind the word is cut off together with the space. -/
theorem killLine_iff :
    KillLine line argument ↔
      CommandLine.hasWord (splitBackground (Text.trim line)).1 killWord = true ∧
        argument = Text.trim ((splitBackground (Text.trim line)).1.drop killWord.length) := by
  have hspace : Text.isBlank ' ' = true := by decide
  rw [CommandLine.hasWord_iff]
  constructor
  · rintro (⟨hcommand⟩ | ⟨hcommand⟩) <;> rw [commandOf_iff.mp hcommand]
    · exact ⟨.inl rfl, by decide⟩
    · refine ⟨.inr ⟨_, rfl⟩, ?_⟩
      rw [List.drop_left, Text.trim_cons_blank hspace]
  · rintro ⟨hcommand | ⟨rest, hcommand⟩, rfl⟩ <;> rw [hcommand]
    · exact .bare (commandOf_iff.mpr hcommand)
    · rw [List.drop_left, Text.trim_cons_blank hspace]
      exact .named (commandOf_iff.mpr hcommand)

private theorem request_eq_kill_iff : request line = .kill argument ↔ KillLine line argument := by
  rw [killLine_iff]
  constructor
  · intro h
    simp only [request] at h
    split_ifs at h with hfilled hexit hlone hjobs hkill
    exact ⟨hkill, (Request.kill.inj h).symm⟩
  · rintro ⟨hkill, rfl⟩
    -- None of the words that are looked for earlier begins like this one.
    have hother {word : Text} (hword : CommandLine.hasWord word killWord = false) :
        (splitBackground (Text.trim line)).1 ≠ word := by
      rintro rfl
      rw [hword] at hkill
      cases hkill
    have hfilled : Text.trim line ≠ [] := fun hline =>
      hother (show CommandLine.hasWord [] killWord = false by decide) (by rw [hline]; rfl)
    have hexit : Text.trim line ≠ exitWord := fun hline =>
      hother (show CommandLine.hasWord exitWord killWord = false by decide) (by rw [hline]; rfl)
    have hlone : (splitBackground (Text.trim line)).1 ≠ [] := hother (by decide)
    have hjobs : (splitBackground (Text.trim line)).1 ≠ jobsWord := hother (by decide)
    simp [request, hfilled, hexit, hlone, hjobs, hkill]

/-! Lines that kill. -/

private theorem execute_of_killLine (h : KillLine line argument) :
    shell.execute line = shell.kill argument := by
  simp only [execute, request_eq_kill_iff.mpr h]

private theorem killAnswer_kill (shell : Shell) (argument : Text) :
    KillAnswer shell argument (shell.kill argument).2 (shell.kill argument).1 := by
  cases hcount : Text.count? argument with
  | none =>
      simp only [kill, hcount]
      exact .noNumber (Text.count?_eq_none_iff.mp hcount)
  | some n =>
      obtain ⟨hnumber, hfits⟩ := Text.count?_eq_some_iff.mp hcount
      by_cases hunlisted : n = 0 ∨ shell.jobs.live.length < n
      · simp only [kill, hcount, Jobs.kill_of_unlisted hunlisted, Except.map]
        exact .noJob hnumber hfits hunlisted
      · have hcounted : 1 ≤ n := by omega
        have hthere : n - 1 < shell.jobs.live.length := by omega
        have hjob := List.getElem?_eq_getElem hthere
        simp only [kill, hcount, Jobs.kill_of_live hcounted hjob, Except.map]
        refine .killed hnumber hfits hcounted hjob ?_ ?_
        · rw [Jobs.runs_release, Jobs.runs_prune]
        · rw [Jobs.held_release, Jobs.held_prune]

/-- What is answered is told by the text and the jobs. -/
theorem KillAnswer.eq {after : Shell} (h : KillAnswer shell argument outcome after) :
    (shell.kill argument).2 = outcome := by
  cases h with
  | noNumber hnone => simp only [kill, Text.count?_eq_none_iff.mpr hnone]
  | noJob hnumber hfits hunlisted =>
      have hcount := Text.count?_eq_some_iff.mpr ⟨hnumber, hfits⟩
      simp only [kill, hcount, Jobs.kill_of_unlisted hunlisted, Except.map]
  | killed hnumber hfits hcounted hthere =>
      have hcount := Text.count?_eq_some_iff.mpr ⟨hnumber, hfits⟩
      simp only [kill, hcount, Jobs.kill_of_live hcounted hthere, Except.map]

/-! All other lines. -/

private theorem LeavesJobs.of_jobs {after : Shell} (h : after.jobs = shell.jobs) :
    LeavesJobs shell after := by
  refine ⟨⟨[], ?_, nofun⟩, ?_⟩
  · rw [h, List.append_nil]
  · rw [h]
    exact fun _ => id

private theorem LeavesJobs.of_register {after : Shell} (run : Run) (hgoing : run.cancelled = false)
    (h : after.jobs = (shell.jobs.register run).1) : LeavesJobs shell after := by
  refine ⟨⟨[(shell.jobs.nextId, run)], ?_, ?_⟩, ?_⟩
  · rw [h, Jobs.runs_register]
  · simpa using hgoing
  · rw [h, Jobs.live_register]
    exact fun _ => List.mem_append_left _

private theorem leavesJobs_runPipeline (shell : Shell) (command : Text) (background : Bool) :
    LeavesJobs shell (shell.runPipeline command background).1 ∧
      ∀ info, (shell.runPipeline command background).2 ≠ .ok (.killed info) := by
  rcases hbuild : CommandLine.build shell.world.directory shell.world.files command with
    ⟨files, error | pipeline⟩
  · rw [runPipeline_of_error hbuild]
    exact ⟨.of_jobs rfl, nofun⟩
  · cases background with
    | true =>
        rw [(runPipeline_of_ok hbuild).2]
        exact ⟨.of_register (Run.start pipeline) rfl rfl, nofun⟩
    | false =>
        rw [(runPipeline_of_ok hbuild).1]
        refine ⟨.of_jobs rfl, fun info hkilled => ?_⟩
        simp only [runForeground] at hkilled
        split at hkilled <;> cases hkilled

private theorem leavesJobs_of_other (h : ∀ argument, ¬ KillLine line argument) :
    LeavesJobs shell (shell.execute line).1 ∧
      ∀ info, (shell.execute line).2 ≠ .ok (.killed info) := by
  cases hrequest : request line with
  | nothing | exit | lone text =>
      simp only [execute, hrequest]
      exact ⟨.of_jobs rfl, by simp⟩
  | jobs =>
      simp only [execute, hrequest]
      refine ⟨⟨⟨[], ?_, by simp⟩, ?_⟩, by simp⟩
      · exact shell.jobs.runs_prune.trans (List.append_nil _).symm
      · intro job hjob
        exact shell.spares_prune.live.symm ▸ hjob
  | kill index => exact absurd (request_eq_kill_iff.mp hrequest) (h index)
  | pipeline command background =>
      rw [execute_of_request hrequest]
      exact leavesJobs_runPipeline shell command background

/-! What a shell does to its registry is part of the registry's history. -/

theorem history_execute {turns : List Turn} (h : Jobs.History turns shell.jobs) (line : Text) :
    ∃ more, Jobs.History (turns ++ more) (shell.execute line).1.jobs := by
  have hsame : ∃ more, Jobs.History (turns ++ more) shell.jobs := ⟨[], by rwa [List.append_nil]⟩
  cases hrequest : request line with
  | nothing | exit | lone text =>
      simp only [execute, hrequest]
      exact hsame
  | jobs =>
      simp only [execute, hrequest]
      exact h.next .list shell.world rfl
  | kill index =>
      simp only [execute, hrequest, kill]
      cases Text.count? index with
      | none => exact hsame
      | some position => exact h.next (.kill position) shell.world rfl
  | pipeline command background =>
      rw [execute_of_request hrequest]
      rcases hbuild : CommandLine.build shell.world.directory shell.world.files command with
        ⟨files, error | pipeline⟩
      · rw [runPipeline_of_error hbuild]
        exact hsame
      · cases background with
        | true =>
            rw [(runPipeline_of_ok hbuild).2]
            exact h.next (.register (Run.start pipeline) (.start hbuild)) shell.world rfl
        | false =>
            rw [(runPipeline_of_ok hbuild).1]
            exact hsame

/-- Where the jobs have different numbers, the one that is killed is the one that the
listing shows at the position, and it alone leaves. -/
theorem held_of_killed (h : shell.jobs.Orderly) {info : JobInfo}
    (hkilled : (shell.execute line).2 = .ok (.killed info)) :
    shell.jobs.list.2[info.position - 1]? = some { info with status := .running } ∧
      (shell.execute line).1.jobs.held = shell.jobs.live.eraseIdx (info.position - 1) := by
  by_cases hline : ∃ argument, KillLine line argument
  · obtain ⟨argument, hline⟩ := hline
    rw [execute_of_killLine hline] at hkilled ⊢
    have hanswer := killAnswer_kill shell argument
    rw [hkilled] at hanswer
    generalize (shell.kill argument).1 = after at hanswer ⊢
    cases hanswer with
    | @killed n job _ _ _ hcounted hthere _ hheld =>
        refine ⟨?_, ?_⟩
        · rw [h.list_eq, numbered, List.getElem?_mapIdx, hthere]
          simp [Nat.sub_add_cancel hcounted]
        · exact hheld.trans (Jobs.filter_eq_eraseIdx h.ascending_live hthere)
  · exact absurd hkilled ((leavesJobs_of_other (not_exists.mp hline)).2 info)

/-- A line that is to kill a job is answered by what stands behind the word: it is no
number that fits into 64 bits, and nothing is done; it is no position of a job that has
not ended; or the job at that position is killed, which is the one that a listing shows
there. Any other line leaves the jobs as they are. -/
theorem kill_line_answer :
    (∀ (shell : Shell) (line argument : Text), KillLine line argument →
      KillAnswer shell argument (shell.execute line).2 (shell.execute line).1 ∧
      ∀ outcome after, KillAnswer shell argument outcome after →
        (shell.execute line).2 = outcome) ∧
    (∀ (shell : Shell) (line : Text), (∀ argument, ¬ KillLine line argument) →
      LeavesJobs shell (shell.execute line).1 ∧
        ∀ info, (shell.execute line).2 ≠ .ok (.killed info)) ∧
    ∀ (shell : Shell) (turns : List Turn), Jobs.History turns shell.jobs →
      ∀ line, (∃ more, Jobs.History (turns ++ more) (shell.execute line).1.jobs) ∧
        ∀ info, (shell.execute line).2 = .ok (.killed info) →
          shell.jobs.list.2[info.position - 1]? = some { info with status := .running } ∧
          (shell.execute line).1.jobs.held = shell.jobs.live.eraseIdx (info.position - 1) := by
  refine ⟨fun shell line argument hline => ?_, fun shell line => leavesJobs_of_other,
    fun shell turns hturns line => ⟨history_execute hturns line, fun info hkilled => ?_⟩⟩
  · rw [execute_of_killLine hline]
    exact ⟨killAnswer_kill shell argument, fun outcome after => KillAnswer.eq⟩
  · exact held_of_killed hturns.orderly hkilled

/-- A job is started, and a line with a sign, zeros and a mark kills it. -/
theorem kill_line_answer_sample :
    ∃ info, ((Sample.shell.execute "cat f | uniq > g &".toList).1.execute
        " kill  +01 & ".toList).2 = .ok (.killed info) ∧
      KillLine " kill  +01 & ".toList "+01".toList ∧
      KillAnswer (Sample.shell.execute "cat f | uniq > g &".toList).1 "+01".toList
        (.ok (.killed info))
        ((Sample.shell.execute "cat f | uniq > g &".toList).1.execute " kill  +01 & ".toList).1 ∧
      ((Sample.shell.execute "cat f | uniq > g &".toList).1.execute
        " kill  +01 & ".toList).1.jobs.held = [] := by
  have hline : KillLine " kill  +01 & ".toList "+01".toList :=
    request_eq_kill_iff.mp (by decide +kernel)
  have hkilled : ((Sample.shell.execute "cat f | uniq > g &".toList).1.execute
      " kill  +01 & ".toList).2 = .ok (.killed
        { id := 1, position := 1, command := "cat f | uniq > g".toList, status := .killed }) := by
    decide +kernel
  have hanswer := (kill_line_answer.1 (Sample.shell.execute "cat f | uniq > g &".toList).1
    " kill  +01 & ".toList "+01".toList hline).1
  rw [hkilled] at hanswer
  exact ⟨_, hkilled, hline, hanswer, by decide +kernel⟩

end Shell

end LineShell
