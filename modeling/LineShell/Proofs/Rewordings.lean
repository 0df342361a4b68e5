import LineShell.Proofs.ShellMoves

/-!
Lines that are written otherwise and do the same. All filters but `wc` make nothing more
of what they have made already, and those that choose lines by what these are choose the
same ones in either order. So a filter may be written twice, and two of those that choose
may be exchanged; the line stays one that is accepted, and whatever the order in which
its workers take their steps, it leaves the world as the other one does.
-/

namespace LineShell

/-! What filters make of lines, one after the other. -/

namespace Verb

variable {verb first second : Verb}

/-- Two filters that may stand in either order. -/
inductive Exchangeable : Verb → Verb → Prop
  | greps (query other : Text) : Exchangeable (.grep query) (.grep other)
  | grepUniq (query : Text) : Exchangeable (.grep query) .uniq
  | uniqGrep (query : Text) : Exchangeable .uniq (.grep query)

private theorem length_others_lt (line : Text) (rest : List Text) :
    (rest.filter fun other => !other == line).length < (line :: rest).length :=
  Nat.lt_succ_of_le (List.length_filter_le _ _)

/-- It is the same to choose among the lines that come for the first time, and to drop
the repeated ones among those that are chosen. -/
theorem eraseDups_filter (keep : Text → Bool) (lines : List Text) :
    (lines.filter keep).eraseDups = lines.eraseDups.filter keep := by
  induction hlength : lines.length using Nat.strong_induction_on generalizing lines with
  | _ length ih =>
      cases lines with
      | nil => rfl
      | cons line rest =>
          have hshort := hlength ▸ length_others_lt line rest
          have hothers := ih _ hshort (rest.filter fun other => !other == line) rfl
          rw [List.eraseDups_cons]
          by_cases hkeep : keep line = true
          · rw [List.filter_cons_of_pos hkeep, List.filter_cons_of_pos hkeep, List.eraseDups_cons,
              ← hothers, List.filter_filter, List.filter_filter]
            simp only [Bool.and_comm]
          · -- What is not chosen need not be told from the line at the front.
            have hsame : (rest.filter fun other => !other == line).filter keep =
                rest.filter keep := by
              rw [List.filter_filter]
              refine List.filter_congr fun other _ => ?_
              by_cases hline : other = line
              · simp [hline, hkeep]
              · simp [hline]
            rw [List.filter_cons_of_neg hkeep, List.filter_cons_of_neg hkeep, ← hothers, hsame]

private theorem eraseDups_eraseDups (lines : List Text) :
    lines.eraseDups.eraseDups = lines.eraseDups := by
  induction hlength : lines.length using Nat.strong_induction_on generalizing lines with
  | _ length ih =>
      cases lines with
      | nil => rfl
      | cons line rest =>
          have hshort := hlength ▸ length_others_lt line rest
          rw [List.eraseDups_cons, List.eraseDups_cons, ← eraseDups_filter, List.filter_filter]
          simp only [Bool.and_self]
          rw [ih _ hshort _ rfl]

/-- A filter that does not count makes nothing more of what it has made. -/
theorem passes_passes (hfilter : verb.isFilter = true) (hother : verb ≠ .wc)
    (lines : List Text) : verb.passes (verb.passes lines) = verb.passes lines := by
  cases verb with
  | grep query => simp only [passes, List.filter_filter, Bool.and_self]
  | uniq => exact eraseDups_eraseDups lines
  | head => simp only [passes, List.take_take, Nat.min_self]
  | tail =>
      have hnone : (lines.drop (lines.length - 10)).length - 10 = 0 := by
        rw [List.length_drop]
        omega
      simp only [passes, hnone, List.drop_zero]
  | wc => exact absurd rfl hother
  | _ => cases hfilter

private theorem Exchangeable.passes_comm (h : Exchangeable first second) (lines : List Text) :
    second.passes (first.passes lines) = first.passes (second.passes lines) := by
  cases h with
  | greps query other =>
      simp only [passes, List.filter_filter]
      exact List.filter_congr fun line _ => Bool.and_comm _ _
  | grepUniq query => exact eraseDups_filter _ lines
  | uniqGrep query => exact (eraseDups_filter _ lines).symm

private theorem passAll_append (front back : List Verb) (lines : List Text) :
    passAll (front ++ back) lines = passAll back (passAll front lines) :=
  List.foldl_append ..

end Verb

namespace CommandLine

open Verb (Exchangeable)

variable {directory command : Text} {tree : FileTree} {verb other : Verb}

/-! Filters and other commands. -/

private theorem FilterCommand.unique (h : FilterCommand command verb)
    (hother : FilterCommand command other) : verb = other := by
  generalize hsame : command = same at hother
  cases h <;> cases hother <;> simp_all

private theorem SourceCommand.not_filter (h : SourceCommand directory tree command verb) :
    ¬ FilterCommand command other := by
  intro hother
  generalize hsame : command = same at hother
  cases h <;> cases hother <;> simp_all

private theorem SolitaryCommand.not_filter (h : SolitaryCommand directory tree command verb) :
    ¬ FilterCommand command other := by
  intro hother
  generalize hsame : command = same at hother
  cases h <;> cases hother <;> simp_all

/-! Segments that are written otherwise. -/

/-- Some segments in a row, and what may stand in their place. Blanks around a command
may differ. -/
inductive Reworded : List Text → List Text → Prop
  | twice {segment copy : Text} {verb : Verb} (command : FilterCommand (Text.trim segment) verb)
      (repeatable : verb ≠ .wc) (same : Text.trim copy = Text.trim segment) :
      Reworded [segment] [segment, copy]
  | exchange {one two former latter : Text} {first second : Verb}
      (one_command : FilterCommand (Text.trim one) first)
      (two_command : FilterCommand (Text.trim two) second)
      (exchangeable : Exchangeable first second) (former_two : Text.trim former = Text.trim two)
      (latter_one : Text.trim latter = Text.trim one) :
      Reworded [one, two] [former, latter]

/-- A line and the same line with some of its segments reworded. What stands before them
and behind them stays as it is, and so does the redirect that ends the line; there may be
any number of `|` before it. -/
inductive Rewritten : Text → Text → Prop
  | mk {user ending : Text} {front old new back : List Text} {count : Nat} (plain : '>' ∉ user)
      (ends : ending = [] ∨ ∃ after, ending = '>' :: after ∧ '>' ∉ after ∧ '|' ∉ after)
      (segmented : Segmented user (front ++ old ++ back)) (reworded : Reworded old new) :
      Rewritten (user ++ ending)
        (Text.joinWith '|' (front ++ new ++ back) ++ List.replicate count '|' ++ ending)

/-- A segment that is a filter, and its command. -/
def IsFilterOf (segment : Text) (filter : Text × Verb) : Prop :=
  filter.1 = Text.trim segment ∧ FilterCommand filter.1 filter.2

variable {line user twin ending segment : Text} {front old new back : List Text}
  {filters : List (Text × Verb)} {cleared : FileTree} {last : Text × Verb} {c : Char}

private theorem FilterCommand.ne_nil (h : FilterCommand command verb) : command ≠ [] := by
  cases h <;> simp

private theorem IsFilterOf.ne_nil {filter : Text × Verb} (h : IsFilterOf segment filter) :
    segment ≠ [] := by
  rintro rfl
  exact h.2.ne_nil h.1

/-- A row of segments that are filters ends where one of its parts ends. -/
theorem forall₂_append_left {segments more : List Text}
    (h : List.Forall₂ IsFilterOf (segments ++ more) filters) :
    ∃ first rest, filters = first ++ rest ∧ List.Forall₂ IsFilterOf segments first ∧
      List.Forall₂ IsFilterOf more rest :=
  ⟨filters.take segments.length, filters.drop segments.length,
    (List.take_append_drop _ _).symm, (List.forall₂_take_append _ _ _ h.flip).flip,
    (List.forall₂_drop_append _ _ _ h.flip).flip⟩

namespace Reworded

private theorem isFilter (h : Reworded old new) :
    ∀ segment ∈ old, ∃ verb, FilterCommand (Text.trim segment) verb := by
  cases h with
  | twice hcommand => simpa using ⟨_, hcommand⟩
  | exchange hone htwo => simpa using ⟨⟨_, hone⟩, ⟨_, htwo⟩⟩

private theorem exists_mem (h : Reworded old new) : ∃ segment, segment ∈ old := by
  cases h <;> exact ⟨_, List.mem_cons_self⟩

/-- What stands in their place is made of the same characters but for the blanks. -/
theorem not_mem (h : Reworded old new) (hc : Text.isBlank c = false)
    (hold : ∀ segment ∈ old, c ∉ segment) : ∀ segment ∈ new, c ∉ segment := by
  have hsame {segment copy : Text} (htrim : Text.trim copy = Text.trim segment)
      (hsegment : c ∉ segment) : c ∉ copy := fun hmem =>
    hsegment (Text.mem_of_mem_trim (htrim ▸ Text.mem_trim_of_mem hmem hc))
  cases h with
  | twice _ _ htrim =>
      have hsegment := hold _ List.mem_cons_self
      simpa using ⟨hsegment, hsame htrim hsegment⟩
  | exchange _ _ _ hformer hlatter =>
      have hone := hold _ List.mem_cons_self
      have htwo := hold _ (List.mem_cons_of_mem _ List.mem_cons_self)
      simpa using ⟨hsame hformer htwo, hsame hlatter hone⟩

/-- It is filters again, and they make of all lines what the others make of them. -/
theorem exists_filters (h : Reworded old new) (hfilters : List.Forall₂ IsFilterOf old filters) :
    ∃ others, List.Forall₂ IsFilterOf new others ∧ ∀ lines,
      Verb.passAll (others.map Prod.snd) lines = Verb.passAll (filters.map Prod.snd) lines := by
  cases h with
  | twice hcommand hrepeatable hsame =>
      rcases hfilters with - | ⟨⟨hfilter, hclass⟩, hnil⟩
      cases hnil
      rename_i filter
      obtain rfl := hclass.unique (hfilter ▸ hcommand)
      refine ⟨[filter, filter], .cons ⟨hfilter, hclass⟩
        (.cons ⟨hfilter.trans hsame.symm, hclass⟩ .nil), fun lines => ?_⟩
      exact Verb.passes_passes hclass.isFilter hrepeatable lines
  | exchange hone htwo hexchangeable hformer hlatter =>
      rcases hfilters with - | ⟨⟨hfirst, hfirstClass⟩, - | ⟨⟨hsecond, hsecondClass⟩, hnil⟩⟩
      cases hnil
      rename_i first second
      obtain rfl := hfirstClass.unique (hfirst ▸ hone)
      obtain rfl := hsecondClass.unique (hsecond ▸ htwo)
      refine ⟨[second, first], .cons ⟨hsecond.trans hformer.symm, hsecondClass⟩
        (.cons ⟨hfirst.trans hlatter.symm, hfirstClass⟩ .nil), fun lines => ?_⟩
      exact (hexchangeable.passes_comm lines).symm

/-- The segments of a text with a filter among them are no others. -/
theorem segments (h : Reworded old new) (hsegmented : Segmented user (front ++ old ++ back)) :
    CommandLine.segments user = front ++ old ++ back := by
  refine segments_of_segmented hsegmented fun hempty => ?_
  obtain ⟨segment, hmem⟩ := h.exists_mem
  obtain ⟨verb, hcommand⟩ := h.isFilter segment hmem
  have hnil : segment = [] := by
    have hthere : segment ∈ front ++ old ++ back := by simp [hmem]
    rw [hempty] at hthere
    exact List.mem_singleton.mp hthere
  rw [hnil] at hcommand
  exact hcommand.ne_nil rfl

end Reworded

/-- The ending of a line is the same whatever stands before it, if no `>` does. -/
theorem Ending.of_append {before : Text}
    (h : Ending directory tree (user ++ ending) before cleared last) (huser : '>' ∉ user)
    (htwin : '>' ∉ twin)
    (hends : ending = [] ∨ ∃ after, ending = '>' :: after ∧ '>' ∉ after ∧ '|' ∉ after) :
    before = user ∧ Ending directory tree (twin ++ ending) twin cleared last := by
  rcases hends with rfl | ⟨after, rfl, hredirect, hpipe⟩
  · rw [List.append_nil] at h
    rw [List.append_nil]
    cases h with
    | print hnone =>
        refine ⟨rfl, .print ?_⟩
        rintro ⟨_, _, rfl, -⟩
        exact htwin (by simp)
    | redirect hfound =>
        obtain ⟨rfl, -⟩ := hfound
        exact absurd (by simp) huser
  · have hlast : LastRedirect (user ++ '>' :: after) user after := ⟨rfl, hredirect, hpipe⟩
    cases h with
    | print hnone => exact absurd ⟨_, _, hlast⟩ hnone
    | redirect hfound hspaced hfree hgiven =>
        have hsame := (splitEnding_of_lastRedirect hfound).symm.trans
          (splitEnding_of_lastRedirect hlast)
        simp only [Prod.mk.injEq, Option.some.injEq, List.cons.injEq, true_and] at hsame
        obtain ⟨rfl, rfl⟩ := hsame
        exact ⟨rfl, .redirect ⟨rfl, hredirect, hpipe⟩ hspaced hfree hgiven⟩

/-- Segments that are no others than those of an accepted line but for some that have been
reworded: the first one is the same, and all behind it are filters, which make the same
of all lines. -/
theorem Reworded.exists_rest {first : Text} {rest : List Text} {source : Verb}
    (h : Reworded old new) (hsegments : first :: rest = front ++ old ++ back)
    (hsource : SourceCommand directory tree (Text.trim first) source)
    (hfilters : List.Forall₂ IsFilterOf rest filters) :
    ∃ others twins, front ++ new ++ back = first :: others ∧
      List.Forall₂ IsFilterOf others twins ∧ ∀ lines,
        Verb.passAll (twins.map Prod.snd) lines = Verb.passAll (filters.map Prod.snd) lines := by
  cases front with
  | nil =>
      -- A filter cannot stand where the source is.
      have hmem : first ∈ old := by
        obtain ⟨segment, hmem⟩ := h.exists_mem
        cases old with
        | nil => cases hmem
        | cons head more => simp [(List.cons.inj hsegments).1]
      obtain ⟨verb, hfilter⟩ := h.isFilter first hmem
      exact absurd hfilter hsource.not_filter
  | cons head front =>
      obtain ⟨rfl, rfl⟩ := List.cons.inj hsegments
      obtain ⟨_, behind, rfl, hbefore, hbehind⟩ := forall₂_append_left hfilters
      obtain ⟨ahead, among, rfl, hahead, hamong⟩ := forall₂_append_left hbefore
      obtain ⟨twins, htwins, hsame⟩ := h.exists_filters hamong
      refine ⟨front ++ new ++ back, ahead ++ twins ++ behind, rfl,
        List.rel_append (List.rel_append hahead htwins) hbehind, fun lines => ?_⟩
      simp only [List.map_append, Verb.passAll_append, hsame]

/-- A line that is accepted is accepted when it has been rewritten. The source and the end
of its pipeline are the same, and the filters between them make the same of all
lines. -/
theorem Accepted.rewritten {other : Text} {stages : List Stage}
    (h : Accepted directory tree line cleared stages) (hrewritten : Rewritten line other) :
    ∃ (others : List Stage) (source sink : Verb) (filters twins : List Verb),
      Accepted directory tree other cleared others ∧
      stages.map Stage.verb = source :: filters ++ [sink] ∧
      others.map Stage.verb = source :: twins ++ [sink] ∧
      ∀ lines, Verb.passAll twins lines = Verb.passAll filters lines := by
  obtain @⟨user, ending, front, old, new, back, count, hplain, hends, hsegmented, hreworded⟩ :=
    hrewritten
  have hsegments := hreworded.segments hsegmented
  cases h with
  | @solitary segment verb hnone halone _ hcommand =>
      exfalso
      have huser : user ++ ending = user := by
        rcases hends with rfl | ⟨after, rfl, hredirect, hpipe⟩
        · exact List.append_nil _
        · exact absurd ⟨user, after, rfl, hredirect, hpipe⟩ hnone
      have hsingle : [segment] = front ++ old ++ back := by
        rw [← hsegments, ← huser]
        refine (segments_of_segmented halone fun hempty => ?_).symm
        rw [(List.cons.inj hempty).1] at hcommand
        exact ne_nil_of_accepted (.inr hcommand) rfl
      obtain ⟨filter, hmem⟩ := hreworded.exists_mem
      obtain ⟨other, hfilter⟩ := hreworded.isFilter filter hmem
      have hthere : filter ∈ [segment] := hsingle ▸ by simp [hmem]
      rw [List.mem_singleton.mp hthere] at hfilter
      exact hcommand.not_filter hfilter
  | @row _ _ last first rest source filters hending hparts hfree hsource hfilters =>
      obtain ⟨rfl, -⟩ := hending.of_append hplain hplain hends
      have hold : first :: rest = front ++ old ++ back := by
        rw [← hsegments]
        refine (segments_of_segmented hparts fun hempty => ?_).symm
        rw [(List.cons.inj hempty).1] at hsource
        exact ne_nil_of_accepted (.inl hsource) rfl
      obtain ⟨others, twins, hnew, htwins, hsame⟩ := hreworded.exists_rest hold hsource hfilters
      rw [hnew]
      have hnot {c : Char} (hc : Text.isBlank c = false)
          (hall : ∀ segment ∈ front ++ old ++ back, c ∉ segment) :
          ∀ segment ∈ first :: others, c ∉ segment := by
        simp only [← hnew, List.forall_mem_append] at hall ⊢
        exact ⟨⟨hall.1.1, hreworded.not_mem hc hall.1.2⟩, hall.2⟩
      have hpipe := hnot (by decide) hsegmented.free
      have hmark : ∀ segment ∈ first :: others, '>' ∉ segment :=
        hnot (by decide) fun segment hmem hin => hplain (mem_of_segmented hsegmented hmem hin)
      have hfilled : ∀ segment ∈ first :: others, segment ≠ [] := by
        refine List.forall_mem_cons.mpr ⟨?_, ?_⟩
        · rintro rfl
          exact ne_nil_of_accepted (.inl hsource) rfl
        · exact ((List.forall₂_and_left others twins).mp
            (htwins.imp fun _ _ hfilter => ⟨hfilter.ne_nil, hfilter⟩)).1
      have htwin : '>' ∉ Text.joinWith '|' (first :: others) ++ List.replicate count '|' := by
        intro hmem
        rcases List.mem_append.mp hmem with hjoined | hbars
        · obtain ⟨segment, hsegment, hin⟩ := Text.mem_of_mem_joinWith hjoined (by decide)
          exact hmark segment hsegment hin
        · cases List.eq_of_mem_replicate hbars
      have hlast : (first :: others).getLast? ≠ some [] := fun hempty =>
        hfilled [] (List.mem_of_getLast? hempty) rfl
      have hrewritten : Segmented (Text.joinWith '|' (first :: others) ++ List.replicate count '|')
          (first :: others) :=
        ⟨List.cons_ne_nil _ _, hpipe, getLast?_joinWith_ne hpipe hlast, count, rfl⟩
      obtain ⟨-, hends⟩ := hending.of_append hplain htwin hends
      refine ⟨_, source, last.2, filters.map Prod.snd, twins.map Prod.snd,
        .row hends hrewritten hmark hsource htwins, ?_, ?_, hsame⟩
      · simp [Stage.map_verb_rowFrom]
      · simp [Stage.map_verb_rowFrom]

end CommandLine

/-! Pipelines of lines that are written otherwise. -/

/-- Rows with the same source and sink leave the world alike, if their filters make the
same of all lines. -/
theorem finalWorld_of_same {world : World} {source sink : Verb} {filters twins : List Verb}
    (hsame : ∀ lines, Verb.passAll twins lines = Verb.passAll filters lines) :
    finalWorld world (source :: twins ++ [sink]) =
      finalWorld world (source :: filters ++ [sink]) := by
  have hpassed (middle : List Verb) (lines : List Text) :
      Verb.passAll (source :: middle ++ [sink]) lines =
        sink.passes (Verb.passAll middle (source.passes lines)) :=
    Verb.passAll_append (source :: middle) [sink] lines
  rw [finalWorld_eq rfl List.getLast?_concat, finalWorld_eq rfl List.getLast?_concat, hpassed,
    hpassed, hsame]

private theorem races_of_ends {world : World} {source sink : Verb} {filters twins : List Verb}
    (h : Races world (source :: twins ++ [sink])) :
    Races world (source :: filters ++ [sink]) := by
  obtain ⟨path, place, hlists, hredirects, hraces⟩ := h
  rw [List.getLast?_concat] at hredirects
  exact ⟨path, place, hlists, List.getLast?_concat.trans hredirects, hraces⟩

/-- A line that has been rewritten is made into a pipeline as well, which leaves the files
as they are after the line itself has been made, and begins in the same world. It comes to
the same end. -/
theorem CommandLine.exists_twin {world : World} {tree : FileTree} {line other : Text}
    {pipeline : Pipeline}
    (hbuild : build world.directory tree line = (world.files, .ok pipeline))
    (hquiet : ¬ Races world pipeline.verbs) (hrewritten : Rewritten line other) :
    ∃ twin, build world.directory tree other = (world.files, .ok twin) ∧
      ¬ Races world twin.verbs ∧ Verb.exit ∉ twin.verbs ∧
      finalWorld world twin.verbs = finalWorld world pipeline.verbs := by
  obtain ⟨stages, source, sink, filters, twins, haccepted, hverbs, htwins, hsame⟩ :=
    (accepted_of_build hbuild).1.rewritten hrewritten
  have htwin : build world.directory tree other =
      (world.files, .ok { command := Text.trim other, stages }) := build_of_accepted haccepted
  refine ⟨_, htwin, ?_, ?_, ?_⟩
  · intro hraces
    rw [Pipeline.verbs, htwins] at hraces
    rw [Pipeline.verbs, hverbs] at hquiet
    exact hquiet (races_of_ends hraces)
  · intro hexit
    have halone := (row_of_build htwin).1.exit_iff.mp hexit
    rw [Pipeline.verbs, htwins] at halone
    simp at halone
  · rw [Pipeline.verbs, Pipeline.verbs, htwins, hverbs]
    exact finalWorld_of_same hsame

private theorem Pipeline.requestsExit_eq_false {pipeline : Pipeline} (h : .exit ∉ pipeline.verbs) :
    pipeline.requestsExit = false := by
  rw [requestsExit, List.any_eq_false]
  intro stage hstage hexit
  exact h (of_decide_eq_true hexit ▸ List.mem_map_of_mem hstage)

/-- A line that is run at once and has been rewritten does what the line itself does. -/
theorem Shell.execute_rewritten {shell : Shell} {text copy line other : Text} {files : FileTree}
    {pipeline : Pipeline} (hrequest : request text = .pipeline line false)
    (hother : request copy = .pipeline other false)
    (hbuild : CommandLine.build shell.world.directory shell.world.files line =
      (files, .ok pipeline)) (hquiet : ¬ Races { shell.world with files } pipeline.verbs)
    (hrewritten : CommandLine.Rewritten line other) :
    (shell.execute copy).1 = (shell.execute text).1 ∧
      ∃ result, (shell.execute copy).2 = .ok (.completed result) ∧ result.ok = true := by
  let world : World := { shell.world with files }
  have hworld : CommandLine.build world.directory shell.world.files line =
      (world.files, .ok pipeline) := hbuild
  obtain ⟨twin, htwin, hstill, hexit, hsame⟩ := CommandLine.exists_twin hworld hquiet hrewritten
  obtain ⟨-, hline⟩ := (CommandLine.begins_of_build hworld).settle hquiet
  obtain ⟨hresult, hcopy⟩ := (CommandLine.begins_of_build htwin).settle hstill
  have hgoes : ((Run.start twin).settle world).1.result.exitRequested = false := by
    rw [hresult]
    exact Pipeline.requestsExit_eq_false hexit
  have hcopied :
      (shell.execute copy).1 = { shell with world := ((Run.start twin).settle world).2 } ∧
      (shell.execute copy).2 = .ok (.completed ((Run.start twin).settle world).1.result) := by
    rw [execute_of_request hother, (runPipeline_of_ok htwin).1]
    simp only [runForeground]
    rw [if_neg (by simpa [world] using hgoes)]
    exact ⟨rfl, rfl⟩
  refine ⟨?_, _, hcopied.2, by rw [hresult]; exact decide_eq_true rfl⟩
  rw [hcopied.1, execute_of_request hrequest, (runPipeline_of_ok hbuild).1]
  simp only [runForeground]
  rw [hcopy, hsame, ← hline]

/-- A line in which a filter that does not count is written twice, or in which two `grep`,
or a `grep` and a `uniq`, have been exchanged, is accepted where the line itself is. It
comes to its end, all of its workers finish whatever the order of their steps, and it
leaves the console, the files and the directory as every run of the line itself leaves
them. So it does in a shell that runs both at once. -/
theorem rewritten_line_agrees :
    (∀ (world : World) (tree : FileTree) (line other : Text) (pipeline : Pipeline),
      CommandLine.build world.directory tree line = (world.files, .ok pipeline) →
      ¬ Races world pipeline.verbs → CommandLine.Rewritten line other →
      ∃ twin, CommandLine.build world.directory tree other = (world.files, .ok twin) ∧
        (∃ order : List Nat, (Run.start twin).follow world (order.map .step) =
          some ((Run.start twin).settle world)) ∧
        (∀ position, ((Run.start twin).settle world).1.stepAt position
          ((Run.start twin).settle world).2 = none) ∧
        ∀ (order : List Nat) (after : Run) (later : World),
          (Run.start twin).follow world (order.map .step) = some (after, later) →
          (∀ position, after.stepAt position later = none) →
            after.result.ok = true ∧
            ∀ (earlier : List Nat) (done : Run) (left : World),
              (Run.start pipeline).follow world (earlier.map .step) = some (done, left) →
              (∀ position, done.stepAt position left = none) → later = left) ∧
    ∀ (shell : Shell) (text copy line other : Text) (files : FileTree) (pipeline : Pipeline),
      Shell.request text = .pipeline line false → Shell.request copy = .pipeline other false →
      CommandLine.build shell.world.directory shell.world.files line = (files, .ok pipeline) →
      ¬ Races { shell.world with files } pipeline.verbs → CommandLine.Rewritten line other →
      (shell.execute copy).1 = (shell.execute text).1 ∧
        ∃ result, (shell.execute copy).2 = .ok (.completed result) ∧ result.ok = true := by
  refine ⟨?_, fun _ _ _ _ _ _ _ => Shell.execute_rewritten⟩
  intro world tree line other pipeline hbuild hquiet hrewritten
  obtain ⟨twin, htwin, hstill, -, hsame⟩ := CommandLine.exists_twin hbuild hquiet hrewritten
  refine ⟨twin, htwin, Run.follow_settle _ _, Run.stepAt_settle _ _, ?_⟩
  intro order after later hfollow hstuck
  obtain ⟨-, hresult, hlater⟩ :=
    (CommandLine.begins_of_build htwin).outcome hstill hfollow hstuck
  refine ⟨by rw [hresult]; exact decide_eq_true rfl, ?_⟩
  intro earlier done left hearlier hdone
  obtain ⟨-, -, hleft⟩ := (CommandLine.begins_of_build hbuild).outcome hquiet hearlier hdone
  rw [hlater, hleft, hsame]

/-- A line with `uniq` in it, and the same line with two of them. -/
theorem rewritten_line_agrees_sample :
    CommandLine.build Sample.world.directory Sample.tree Sample.line =
        (Sample.world.files, .ok Sample.pipeline) ∧
      ¬ Races Sample.world Sample.pipeline.verbs ∧
      CommandLine.Rewritten Sample.line "cat f | uniq | uniq > g".toList ∧
      ∃ twin, CommandLine.build Sample.world.directory Sample.tree
          "cat f | uniq | uniq > g".toList = (Sample.world.files, .ok twin) ∧
        (∃ order : List Nat, (Run.start twin).follow Sample.world (order.map .step) =
          some ((Run.start twin).settle Sample.world)) := by
  have hsegmented : CommandLine.Segmented "cat f | uniq ".toList
      (["cat f ".toList] ++ [" uniq ".toList] ++ []) :=
    ⟨by decide, by decide, by decide, 0, by decide⟩
  have hreworded : CommandLine.Reworded [" uniq ".toList] [" uniq ".toList, " uniq ".toList] :=
    .twice .uniq (by decide) rfl
  have hrewritten : CommandLine.Rewritten Sample.line "cat f | uniq | uniq > g".toList := by
    have hends : "> g".toList = [] ∨ ∃ after, "> g".toList = '>' :: after ∧ '>' ∉ after ∧
        '|' ∉ after := .inr ⟨" g".toList, by decide, by decide, by decide⟩
    exact @CommandLine.Rewritten.mk _ _ _ _ _ _ 0 (by decide) hends hsegmented hreworded
  obtain ⟨twin, htwin, hends, -⟩ :=
    rewritten_line_agrees.1 _ _ _ _ _ Sample.build_line Sample.not_races hrewritten
  exact ⟨Sample.build_line, Sample.not_races, hrewritten, twin, htwin, hends⟩

end LineShell
