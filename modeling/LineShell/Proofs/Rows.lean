import LineShell.Proofs.AcceptedLines
import LineShell.Proofs.Runs

/-!
The pipeline of an accepted line before its first step. It is a verb that stands
alone, or a source, some filters and a sink, all of them not yet begun and with
fresh channels between them; and what is expected of each of them is what the
verbs up to it make of the lines of the source.
-/

namespace LineShell

/-- The verbs of a pipeline, from the first to the last. -/
def Pipeline.verbs (pipeline : Pipeline) : List Verb :=
  pipeline.stages.map Stage.verb

/-- A source, some filters and a sink, with a file to read from in this file tree, and
none to write to but one that could not be removed. -/
structure Line (tree : FileTree) (source : Verb) (filters : List Verb) (sink : Verb) : Prop where
  reads : source.isSource = true
  passes : ∀ filter ∈ filters, filter.isFilter = true
  writes : sink.isSink = true
  there : ∀ path, source = .cat path → tree.isFile path = true
  cleared : ∀ path, sink = .redirect path → tree.isFile path = true → tree.IsKept path

/-- The verbs of an accepted line that leaves this file tree. -/
inductive Row (tree : FileTree) : List Verb → Prop
  | solitary {verb : Verb} (alone : verb.isSolitary = true) : Row tree [verb]
  | line {source : Verb} {filters : List Verb} {sink : Verb}
      (parts : Line tree source filters sink) : Row tree (source :: filters ++ [sink])

namespace Post

/-- The posts of some verbs that have not begun. Whether the first has an inbox is
said apart. -/
def lined (hasInput : Bool) : List Verb → List Post
  | [] => []
  | verb :: rest =>
    { worker := .running (.fresh verb), inbox := if hasInput then some {} else none } ::
      lined true rest

private theorem ofStages_rowFrom (hasInput : Bool) (commands : List (Text × Verb)) :
    ofStages (Stage.rowFrom hasInput commands) = lined hasInput (commands.map Prod.snd) := by
  induction commands generalizing hasInput with
  | nil => rfl
  | cons command rest ih =>
      have hrest := ih true
      simp only [ofStages] at hrest
      simp [ofStages, Stage.rowFrom, lined, hrest]

theorem map_worker_lined (hasInput : Bool) (verbs : List Verb) :
    (lined hasInput verbs).map Post.worker = verbs.map fun verb => .running (.fresh verb) := by
  induction verbs generalizing hasInput with
  | nil => rfl
  | cons verb rest ih => simp [lined, ih]

theorem length_lined (hasInput : Bool) (verbs : List Verb) :
    (lined hasInput verbs).length = verbs.length := by
  simpa using congrArg List.length (map_worker_lined hasInput verbs)

/-- Fresh channels are in order where every verb but the last writes lines. -/
theorem wellWired_lined {first : Verb} {rest : List Verb}
    (h : ∀ verb ∈ (first :: rest).dropLast, verb.producesOutput = true) :
    WellWired (some (.running (.fresh first))) (lined true rest) := by
  induction rest generalizing first with
  | nil => trivial
  | cons next rest ih =>
      have hfirst : first.producesOutput = true := h first (by simp)
      have hfed : Fed (.running (.fresh first)) {} := by
        refine ⟨hfirst, ?_, fun _ => List.not_mem_nil, fun _ => rfl, List.not_mem_nil⟩
        simp
      refine ⟨⟨{}, rfl, hfed⟩, fun _ => ⟨{}, rfl, rfl⟩, ih ?_⟩
      intro verb hverb
      exact h verb (by simp [hverb])

/-- No line has come to verbs that have not begun. -/
theorem unfed_lined {cancelled : Bool} {verbs : List Verb}
    (h : ∀ verb ∈ verbs, verb.acceptsInput = true) :
    ∀ post ∈ lined true verbs, post.Unfed cancelled := by
  induction verbs with
  | nil => simp [lined]
  | cons verb rest ih =>
      intro post hpost
      rcases List.mem_cons.mp hpost with rfl | hrest
      · refine ⟨h verb List.mem_cons_self, ?_⟩
        rintro _ ⟨⟩ frame hframe
        cases hframe
      · exact ih (fun other hother => h other (List.mem_cons_of_mem _ hother)) post hrest

/-- What is expected of verbs that read lines is what they make of those that come
to the first of them. -/
theorem expected_lined {verbs : List Verb} (h : ∀ verb ∈ verbs, verb.acceptsInput = true)
    (source incoming : List Text) {position : Nat} (hposition : position < verbs.length) :
    expected false source incoming (lined true verbs) position =
      Verb.passAll (verbs.take (position + 1)) incoming := by
  induction verbs generalizing incoming position with
  | nil => cases hposition
  | cons verb rest ih =>
      have hverb : verb.acceptsInput = true := h verb List.mem_cons_self
      have hyields : (Worker.running (.fresh verb)).yields false source
          (arriving (some {}) ++ incoming) = verb.passes incoming := by
        have harriving : arriving (some {}) = [] := rfl
        rw [harriving, List.nil_append]
        cases verb with
        | cat path | ls | pwd | cd change | exit => cases hverb
        | _ => rfl
      cases position with
      | zero =>
          rw [lined, expected]
          simpa [Verb.passAll] using hyields
      | succ position =>
          rw [lined, expected]
          simp only [if_true, hyields]
          rw [ih (fun other hother => h other (List.mem_cons_of_mem _ hother)) _
            (by simpa using hposition)]
          simp [Verb.passAll]

end Post

theorem Verb.passes_of_isSource {source : Verb} (h : source.isSource = true)
    (lines : List Text) : source.passes lines = lines := by
  cases source with
  | cat path | ls | pwd => rfl
  | _ => cases h

private theorem Verb.passes_of_isSink {sink : Verb} (h : sink.isSink = true) (lines : List Text) :
    sink.passes lines = lines := by
  cases sink with
  | print => rfl
  | redirect path => rfl
  | _ => cases h

/-- Of every worker in a line is expected what the verbs up to it make of the lines of
the source. -/
theorem Post.expected_line {source : Verb} {rest : List Verb} (hsource : source.isSource = true)
    (hrest : ∀ verb ∈ rest, verb.acceptsInput = true) (lines : List Text) {position : Nat}
    (hposition : position < (source :: rest).length) :
    expected false lines [] (lined false (source :: rest)) position =
      Verb.passAll ((source :: rest).take (position + 1)) lines := by
  obtain ⟨hproduces, haccepts⟩ : source.producesOutput = true ∧ source.acceptsInput = false := by
    simpa [Verb.isSource] using hsource
  have hyields : (Worker.running (.fresh source)).yields false lines (arriving none ++ []) =
      lines := by
    simp [Worker.yields, hproduces, haccepts]
  have hfirst : Verb.passAll [source] lines = lines := Verb.passes_of_isSource hsource lines
  cases position with
  | zero => exact hyields.trans hfirst.symm
  | succ position =>
      have hinside : position < rest.length := by simpa using hposition
      have hmore := expected_lined hrest lines lines hinside
      rw [List.take_succ_cons, Verb.passAll, List.foldl_cons, Verb.passes_of_isSource hsource]
      refine Eq.trans ?_ hmore
      rw [lined, expected]
      exact congrArg (fun incoming => expected false lines incoming (lined true rest) position)
        hyields

/-- Behind its source a line has only verbs that read lines. -/
theorem Line.acceptsInput {tree : FileTree} {source sink : Verb} {filters : List Verb}
    (h : Line tree source filters sink) :
    ∀ verb ∈ filters ++ [sink], verb.acceptsInput = true := by
  intro verb hverb
  rcases List.mem_append.mp hverb with hfilter | hlast
  · exact (Bool.and_eq_true_iff.mp (h.passes verb hfilter)).1
  · rw [List.mem_singleton.mp hlast]
    exact (Bool.and_eq_true_iff.mp h.writes).1

/-- What a line makes of lines is what its filters make of them. -/
theorem Line.passAll {tree : FileTree} {source sink : Verb} {filters : List Verb}
    (h : Line tree source filters sink) (lines : List Text) :
    Verb.passAll (source :: filters ++ [sink]) lines = Verb.passAll filters lines := by
  rw [Verb.passAll, List.cons_append, List.foldl_cons, List.foldl_append, List.foldl_cons,
    List.foldl_nil, Verb.passes_of_isSource h.reads, Verb.passes_of_isSink h.writes]
  rfl

namespace Row

variable {tree : FileTree} {verbs : List Verb}

theorem wellWired (h : Row tree verbs) : Post.WellWired none (Post.lined false verbs) := by
  cases h with
  | @solitary verb halone =>
      have haccepts := ((Verb.isSolitary_iff verb).mp halone).1
      refine ⟨rfl, ?_, trivial⟩
      intro hreader
      rw [show verb.acceptsInput = true from hreader] at haccepts
      cases haccepts
  | @line source filters sink hline =>
      obtain ⟨hproduces, haccepts⟩ := Bool.and_eq_true_iff.mp hline.reads
      refine ⟨rfl, ?_, ?_⟩
      · intro hreader
        rw [show source.acceptsInput = true from hreader] at haccepts
        cases haccepts
      · have hfront : ∀ verb ∈ (source :: (filters ++ [sink])).dropLast,
            verb.producesOutput = true := by
          rw [← List.cons_append, List.dropLast_concat]
          intro verb hverb
          rcases List.mem_cons.mp hverb with rfl | hfilter
          · exact hproduces
          · exact (Bool.and_eq_true_iff.mp (hline.passes verb hfilter)).2
        exact Post.wellWired_lined hfront

theorem unfed (h : Row tree verbs) (cancelled : Bool) :
    ∀ post ∈ (Post.lined false verbs).tail, post.Unfed cancelled := by
  cases h with
  | solitary => simp [Post.lined]
  | line hline => exact Post.unfed_lined hline.acceptsInput

/-- Only the first verb of a row reads its lines from the world. -/
theorem eq_zero_of_isSource (h : Row tree verbs) {position : Nat} {verb : Verb}
    (hverb : verbs[position]? = some verb) (hsource : verb.isSource = true) : position = 0 := by
  cases position with
  | zero => rfl
  | succ position =>
      cases h with
      | solitary => cases hverb
      | @line source filters sink hline =>
          have hmem : verb ∈ filters ++ [sink] := List.mem_of_getElem? (by simpa using hverb)
          simp [Verb.isSource, hline.acceptsInput verb hmem] at hsource

/-- Only a row of `exit` alone asks for the end of the session. -/
theorem exit_iff (h : Row tree verbs) : .exit ∈ verbs ↔ verbs = [.exit] := by
  constructor
  · intro hexit
    cases h with
    | solitary => rw [List.mem_singleton.mp hexit]
    | line hline =>
        exfalso
        rcases List.mem_cons.mp hexit with rfl | hrest
        · cases hline.reads
        · cases hline.acceptsInput _ hrest
  · rintro rfl
    exact List.mem_singleton_self _

end Row

/-- The pipeline of an accepted line is a row. -/
theorem CommandLine.row_of_accepted {directory line : Text} {tree cleared : FileTree}
    {stages : List Stage} (h : Accepted directory tree line cleared stages) :
    ∃ commands, stages = Stage.rowFrom false commands ∧ Row cleared (commands.map Prod.snd) := by
  cases h with
  | @solitary segment verb _ _ _ hcommand =>
      exact ⟨[(Text.trim segment, verb)], rfl, .solitary hcommand.isSolitary⟩
  | @row user _ last first rest source filters hending _ _ hsource hfilters =>
      refine ⟨_, rfl, ?_⟩
      have hall := isFilter_of_filterCommands hfilters
      simp only [List.cons_append, List.map_cons, List.map_append, List.map_nil]
      refine .line ⟨hsource.isSource, ?_, hending.isSink, ?_, ?_⟩
      · intro filter hfilter
        obtain ⟨command, hcommand, rfl⟩ := List.mem_map.mp hfilter
        exact hall command hcommand
      · exact fun path hpath => hsource.isFile_of_cat hpath
      · rintro path hpath hstill
        cases hending with
        | print => cases hpath
        | redirect =>
            obtain rfl := Verb.redirect.inj hpath
            obtain ⟨hsame, hkept⟩ := FileTree.isFile_clearFor hstill
            exact hsame.symm ▸ hkept

/-- What an accepted line is made into is a row that has not begun. -/
theorem CommandLine.row_of_build {directory line : Text} {tree cleared : FileTree}
    {pipeline : Pipeline} (h : build directory tree line = (cleared, .ok pipeline)) :
    Row cleared pipeline.verbs ∧
      (Run.start pipeline).posts = Post.lined false pipeline.verbs := by
  obtain ⟨commands, hstages, hrow⟩ := row_of_accepted (accepted_of_build h).1
  have hverbs : pipeline.verbs = commands.map Prod.snd := by
    rw [Pipeline.verbs, hstages, Stage.map_verb_rowFrom]
  rw [hverbs]
  refine ⟨hrow, ?_⟩
  rw [Run.start, hstages]
  exact Post.ofStages_rowFrom false commands

end LineShell
