import LineShell.Proofs.WorkingDirectory

/-!
One change of directory after another. To resolve a path in the directory that another
path has been resolved to is to resolve both at once, with a slash between them, unless
the second one starts over at the root. A `cd` leads to what its argument is resolved to,
also where it takes another way there, so any number of them lead to what their arguments
are resolved to together.
-/

namespace LineShell

/-! Paths that are resolved one after the other. -/

namespace Path

variable {rooted : Bool} {directory first second : Text}

private theorem names_append (before after : Text) :
    names (before ++ '/' :: after) = names before ++ names after := by
  rw [names, Text.split_append, List.filter_append]
  rfl

/-- The names along a joined path are those of its parts. -/
theorem names_join (directory path : Text) :
    names (join directory path) =
      if isAbsolute path then names path else names directory ++ names path := by
  unfold join
  split
  · rfl
  · split
    · rename_i hends
      rcases hends with hnil | hslash
      · rw [hnil]
        rfl
      · -- A slash at the end has an empty name behind it, which is none.
        have hsplit : directory.dropLast ++ ['/'] = directory :=
          List.dropLast_append_getLast? '/' hslash
        have hfront : names directory = names directory.dropLast := by
          rw [← hsplit, names_append, List.dropLast_concat]
          exact List.append_nil _
        rw [hfront, ← hsplit, List.dropLast_concat, List.append_assoc]
        exact names_append _ _
    · exact names_append _ _

/-- Names that have been folded may be folded again together with those behind them. -/
theorem fold_fold_append (rooted : Bool) (before after : List Text) :
    fold rooted (fold rooted before ++ after) = fold rooted (before ++ after) := by
  obtain ⟨stack, hfolded⟩ := exists_folded rooted before
  have hagain : fold rooted (fold rooted before) = fold rooted before := by
    rw [hfolded.fold_eq, hfolded.upFirst.folded.fold_eq]
  have hstack : (fold rooted before).foldl (push rooted) [] = before.foldl (push rooted) [] :=
    List.reverse_injective hagain
  simp only [fold, List.foldl_append] at hstack ⊢
  rw [hstack]

private theorem isAbsolute_resolve (directory path : Text) :
    isAbsolute (resolve directory path) = (isAbsolute path || isAbsolute directory) := by
  obtain ⟨stack, -, hnames, hresolved⟩ := exists_folded_resolve directory path
  rw [hresolved, isAbsolute_render hnames]

private theorem names_resolve (directory path : Text) :
    names (resolve directory path) =
      fold (isAbsolute path || isAbsolute directory) (names (join directory path)) := by
  obtain ⟨stack, hfolded, hnames, hresolved⟩ := exists_folded_resolve directory path
  rw [hresolved, names_render hnames, hfolded.fold_eq]

/-- To resolve a path in what another one is resolved to is to resolve both at once. -/
theorem resolve_resolve (hfirst : first ≠ []) :
    resolve (resolve directory first) second =
      if isAbsolute second then resolve directory second
      else resolve directory (first ++ '/' :: second) := by
  split
  · rename_i hsecond
    simp only [resolve, join, hsecond, if_true]
  · rename_i hsecond
    have hrelative : isAbsolute second = false := Bool.eq_false_iff.mpr hsecond
    have hjoined : isAbsolute (first ++ '/' :: second) = isAbsolute first :=
      isAbsolute_append hfirst _
    have hnames : names (join directory (first ++ '/' :: second)) =
        names (join directory first) ++ names second := by
      rw [names_join, names_join, hjoined, names_append]
      split <;> simp
    rw [resolve, normalize, isAbsolute_join, isAbsolute_resolve, names_join, if_neg hsecond,
      names_resolve, hrelative, Bool.false_or, fold_fold_append, ← hnames, ← hjoined,
      ← isAbsolute_join]
    rfl

/-- A path that adds no name leads from a canonical directory to itself. -/
theorem resolve_of_nameless (h : IsCanonical directory) {path : Text}
    (hrelative : isAbsolute path = false) (hnone : names path = []) :
    resolve directory path = directory := by
  obtain ⟨stack, rfl, hproper⟩ := h
  have hnames : ∀ name ∈ stack, IsName name := fun name hname => (hproper name hname).isName
  have hfirst : UpFirst true stack :=
    ⟨0, stack, rfl, fun hmem => (hproper above hmem).notAbove rfl, fun _ => rfl⟩
  change resolve (render true stack) path = render true stack
  rw [resolve, normalize, isAbsolute_join, names_join, hrelative, if_neg Bool.false_ne_true, hnone,
    List.append_nil, names_render hnames, isAbsolute_render hnames, Bool.false_or,
    hfirst.folded.fold_eq]

/-- Of some paths those that still count when they are gone along one after the other:
the last one that starts at the root, and those behind it. -/
def sinceAbsolute (paths : List Text) : List Text :=
  paths.foldl (fun kept path => if isAbsolute path then [path] else kept ++ [path]) []

private theorem sinceAbsolute_concat (paths : List Text) (path : Text) :
    sinceAbsolute (paths ++ [path]) =
      if isAbsolute path then [path] else sinceAbsolute paths ++ [path] :=
  List.foldl_concat ..

private theorem sinceAbsolute_subset (paths : List Text) : sinceAbsolute paths ⊆ paths := by
  induction paths using List.reverseRecOn with
  | nil => exact List.Subset.refl _
  | append_singleton paths path ih =>
      rw [sinceAbsolute_concat]
      split
      · exact List.subset_append_right _ _
      · exact List.append_subset.mpr
          ⟨List.Subset.trans ih (List.subset_append_left _ _), List.subset_append_right _ _⟩

/-- Paths that are gone along one after the other lead to what they are resolved to
together. -/
theorem foldl_resolve (h : IsCanonical directory) {paths : List Text}
    (hfilled : ∀ path ∈ paths, path ≠ []) :
    paths.foldl resolve directory =
      resolve directory (Text.joinWith '/' (sinceAbsolute paths)) := by
  induction paths using List.reverseRecOn with
  | nil => exact (resolve_of_nameless h rfl rfl).symm
  | append_singleton paths path ih =>
      obtain ⟨hbefore, -⟩ := List.forall_mem_append.mp hfilled
      rw [List.foldl_concat, ih hbefore, sinceAbsolute_concat]
      by_cases hnil : sinceAbsolute paths = []
      · rw [hnil]
        have hstay : resolve directory (Text.joinWith '/' []) = directory :=
          resolve_of_nameless h rfl rfl
        rw [hstay, List.nil_append, ite_self]
        rfl
      · have hjoined : Text.joinWith '/' (sinceAbsolute paths) ≠ [] := by
          cases hkept : sinceAbsolute paths with
          | nil => exact absurd hkept hnil
          | cons first rest =>
              have hfirst : first ≠ [] :=
                hbefore first (sinceAbsolute_subset paths (hkept ▸ List.mem_cons_self))
              cases rest <;> simp [Text.joinWith, hfirst]
        rw [resolve_resolve hjoined]
        split
        · rfl
        · rw [Text.joinWith_append_singleton '/' hnil]

end Path

/-! Commands that change the directory. -/

/-- A `cd` with an argument is accepted in a world and does its change there. -/
inductive Changes (argument : Text) (world : World) : World → Prop
  | made {command : Text} {change : DirectoryChange}
      (given : CommandLine.argument command = .ok argument)
      (makes : CommandLine.makeCd world.directory world.files command = .ok (.cd change)) :
      Changes argument world (world.changeDirectory change)

/-- Some `cd` are done one after the other. Each finds the directory that the one before
it has left, while the files may have become others. -/
inductive Travels (start : World) : List Text → World → Prop
  | stay : Travels start [] start
  | go {arguments : List Text} {argument : Text} {world found later : World}
      (before : Travels start arguments world) (same : found.directory = world.directory)
      (change : Changes argument found later) : Travels start (arguments ++ [argument]) later

variable {argument : Text} {arguments : List Text} {start world middle later : World}

private theorem change_of_makeCd {directory command : Text} {tree : FileTree}
    {change : DirectoryChange}
    (hgiven : CommandLine.argument command = .ok argument)
    (h : CommandLine.makeCd directory tree command = .ok (.cd change)) :
    argument = Path.here ∧ change = .stay ∨ argument = Path.above ∧ change = .up ∨
      change = .to (Path.resolve directory argument) := by
  simp only [CommandLine.makeCd, hgiven, bind, Except.bind] at h
  split_ifs at h with hhere habove hfound
  · exact .inl ⟨hhere, (Verb.cd.inj (Except.ok.inj h)).symm⟩
  · exact .inr (.inl ⟨habove, (Verb.cd.inj (Except.ok.inj h)).symm⟩)
  · exact .inr (.inr (Verb.cd.inj (Except.ok.inj h)).symm)

private theorem Changes.filled (h : Changes argument world later) : argument ≠ [] := by
  obtain ⟨hgiven, -⟩ := h
  obtain ⟨_, _, -, -, hfilled, rfl⟩ := CommandLine.argument_eq_ok_iff.mp hgiven
  exact hfilled

/-- All three ways of changing the directory lead to what the argument is resolved to. -/
theorem Changes.directory (h : Changes argument world later)
    (hcanonical : Path.IsCanonical world.directory) :
    later.directory = Path.resolve world.directory argument := by
  obtain ⟨hgiven, hmakes⟩ := h
  rcases change_of_makeCd hgiven hmakes with ⟨rfl, rfl⟩ | ⟨rfl, rfl⟩ | rfl
  · exact (Path.resolve_of_nameless hcanonical (by decide) (by decide)).symm
  · exact World.directory_up hcanonical
  · rfl

private theorem Changes.isCanonical (h : Changes argument world later)
    (hcanonical : Path.IsCanonical world.directory) : Path.IsCanonical later.directory := by
  rw [h.directory hcanonical]
  exact Path.isCanonical_resolve hcanonical.isAbsolute argument

private theorem Travels.filled (h : Travels start arguments later) :
    ∀ argument ∈ arguments, argument ≠ [] := by
  induction h with
  | stay => nofun
  | go _ _ hchange ih =>
      exact List.forall_mem_append.mpr ⟨ih, List.forall_mem_singleton.mpr hchange.filled⟩

private theorem Travels.directory (h : Travels start arguments later)
    (hcanonical : Path.IsCanonical start.directory) :
    later.directory = arguments.foldl Path.resolve start.directory ∧
      Path.IsCanonical later.directory := by
  induction h with
  | stay => exact ⟨rfl, hcanonical⟩
  | go _ hsame hchange ih =>
      have hfound := hsame ▸ ih.2
      rw [List.foldl_concat, ← ih.1, ← hsame]
      exact ⟨hchange.directory hfound, hchange.isCanonical hfound⟩

/-! Lines that change the directory. -/

/-- A line that makes a `cd` and nothing else leaves the files alone, and its one command
is what the `cd` has been made from. -/
theorem makeCd_of_build {directory line : Text} {tree files : FileTree} {pipeline : Pipeline}
    {change : DirectoryChange}
    (hbuild : CommandLine.build directory tree line = (files, .ok pipeline))
    (hverbs : pipeline.verbs = [.cd change]) :
    files = tree ∧ ∃ stage argument, pipeline.stages = [stage] ∧
      CommandLine.argument stage.command = .ok argument ∧
      CommandLine.makeCd directory tree stage.command = .ok (.cd change) := by
  obtain ⟨haccepted, -⟩ := CommandLine.accepted_of_build hbuild
  rw [Pipeline.verbs] at hverbs
  generalize pipeline.stages = stages at haccepted hverbs ⊢
  cases haccepted with
  | row =>
      rw [Stage.map_verb_rowFrom] at hverbs
      simp at hverbs
  | @solitary segment verb _ _ _ hcommand =>
      rw [Stage.map_verb_rowFrom] at hverbs
      obtain rfl : verb = .cd change := by simpa using hverbs
      obtain ⟨rest, hspelled⟩ : ∃ rest, Text.trim segment = "cd".toList ++ ' ' :: rest := by
        generalize Text.trim segment = command at hcommand
        cases hcommand <;> exact ⟨_, rfl⟩
      have htrimmed : ∀ c, (Text.trim segment).getLast? = some c → Text.isBlank c = false :=
        fun c => Text.isBlank_of_getLast?_trim
      have hmakes := (CommandLine.makeVerb_eq_ok_iff htrimmed).mpr (.inr (.inr (.inl hcommand)))
      rw [hspelled, CommandLine.makeVerb_spaced (by decide), if_pos rfl, ← hspelled] at hmakes
      exact ⟨rfl, _, _, rfl, CommandLine.argument_of_spaced (by decide) hspelled htrimmed, hmakes⟩

/-- A line in the foreground that makes a `cd` is a change of directory. -/
theorem Shell.world_of_cd {shell : Shell} {text command : Text} {files : FileTree}
    {pipeline : Pipeline} {change : DirectoryChange}
    (hrequest : request text = .pipeline command false)
    (hbuild : CommandLine.build shell.world.directory shell.world.files command =
      (files, .ok pipeline)) (hverbs : pipeline.verbs = [.cd change]) :
    (shell.execute text).1.world = ({ shell.world with files } : World).changeDirectory change := by
  have hbegins : Begins { shell.world with files } [.cd change] (Run.start pipeline) :=
    hverbs ▸ CommandLine.begins_of_build hbuild
  have hquiet : ¬ Races { shell.world with files } [.cd change] := by
    rintro ⟨path, place, hlists, -⟩
    cases hlists
  have hsettled := (hbegins.settle hquiet).2
  rw [finalWorld_eq rfl List.getLast?_singleton, Verb.effect_cd] at hsettled
  rw [execute_of_request hrequest, (runPipeline_of_ok hbuild).1]
  simp only [runForeground, hsettled]

/-- Any number of `cd`, each of which is accepted and done before the next, lead from a
canonical directory to what it resolves their arguments to together, a slash between each
two of them, of which none counts that comes before an absolute one. So it is with two of
them, with the paths alone, and with lines that a shell runs at once. -/
theorem directory_of_travels (hcanonical : Path.IsCanonical start.directory) :
    (∀ first second middle later, Changes first start middle → Changes second middle later →
      later.directory = if Path.isAbsolute second then Path.resolve start.directory second
        else Path.resolve start.directory (first ++ '/' :: second)) ∧
    (∀ arguments later, Travels start arguments later →
      later.directory =
        Path.resolve start.directory (Text.joinWith '/' (Path.sinceAbsolute arguments)) ∧
      Path.IsCanonical later.directory) ∧
    (∀ arguments : List Text, (∀ argument ∈ arguments, argument ≠ []) →
      arguments.foldl Path.resolve start.directory =
        Path.resolve start.directory (Text.joinWith '/' (Path.sinceAbsolute arguments))) ∧
    ∀ (shell : Shell) (text command : Text) (files : FileTree) (pipeline : Pipeline)
      (change : DirectoryChange), Shell.request text = .pipeline command false →
      CommandLine.build shell.world.directory shell.world.files command =
        (files, .ok pipeline) → pipeline.verbs = [.cd change] →
      ∃ stage argument, pipeline.stages = [stage] ∧
        CommandLine.argument stage.command = .ok argument ∧
        Changes argument shell.world (shell.execute text).1.world := by
  refine ⟨?_, ?_, fun _ => Path.foldl_resolve hcanonical, ?_⟩
  · intro first second middle later hfirst hsecond
    rw [hsecond.directory (hfirst.isCanonical hcanonical), hfirst.directory hcanonical,
      Path.resolve_resolve hfirst.filled]
  · intro arguments later htravels
    obtain ⟨hdirectory, hlater⟩ := htravels.directory hcanonical
    exact ⟨by rw [hdirectory, Path.foldl_resolve hcanonical htravels.filled], hlater⟩
  · intro shell text command files pipeline change hrequest hbuild hverbs
    obtain ⟨rfl, stage, argument, hstage, hgiven, hmakes⟩ := makeCd_of_build hbuild hverbs
    refine ⟨stage, argument, hstage, hgiven, ?_⟩
    rw [Shell.world_of_cd hrequest hbuild hverbs]
    exact .made hgiven hmakes

/-- Up by the text of the directory, and then on the spot. -/
theorem directory_of_travels_sample :
    Path.IsCanonical Sample.below.world.directory ∧
      ∃ later, Travels Sample.below.world ["..".toList, ".".toList] later ∧
        later.directory = "/a".toList ∧
        later.directory = Path.resolve Sample.below.world.directory "../.".toList := by
  have hup : Changes "..".toList Sample.below.world (Sample.below.world.changeDirectory .up) :=
    .made (show CommandLine.argument "cd ..".toList = .ok "..".toList by decide) (by decide)
  have hstay : Changes ".".toList (Sample.below.world.changeDirectory .up)
      ((Sample.below.world.changeDirectory .up).changeDirectory .stay) :=
    .made (show CommandLine.argument "cd .".toList = .ok ".".toList by decide) (by decide)
  have htravels : Travels Sample.below.world ["..".toList, ".".toList]
      ((Sample.below.world.changeDirectory .up).changeDirectory .stay) :=
    .go (.go .stay rfl hup) rfl hstay
  exact ⟨Sample.isCanonical_below, _, htravels, by decide,
    ((directory_of_travels Sample.isCanonical_below).2.1 _ _ htravels).1⟩

end LineShell
