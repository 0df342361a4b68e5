import LineShell.Proofs.Rows

/-!
The lines that a source reads. They are told here from the file tree alone, and
it does not matter when the source reads them: no line has come to the last worker by
then, so it has done no more to the world than to make an empty file, and that could only
show in the listed directory.
-/

namespace LineShell

/-- The lines of a source in a world: of a file its lines when it has been decoded,
of the working directory the names of what is directly in it in ascending order,
or the path of the working directory itself. -/
inductive SourceLines (world : World) : Verb → List Text → Prop
  | cat {path : Text} {place : Place} {content : Bytes}
      (found : world.files.locate true path = .found place (.file content)) :
      SourceLines world (.cat path) (Text.lines (Text.decode content))
  | ls {place : Place} {names : List Text}
      (found : world.files.locate true world.directory = .found place .directory)
      (ordered : names.Pairwise (· < ·))
      (complete : ∀ name, name ∈ names ↔ world.files.node? (place ++ [name]) ≠ none) :
      SourceLines world .ls names
  | unlisted
      (missing : ∀ place, world.files.locate true world.directory ≠ .found place .directory) :
      SourceLines world .ls []
  | pwd : SourceLines world .pwd [world.directory]

theorem sourceLines_reads {world : World} {source : Verb} (hsource : source.isSource = true)
    (hthere : ∀ path, source = .cat path → world.files.isFile path = true) :
    SourceLines world source (source.reads world) := by
  cases source with
  | cat path =>
      have hfile := hthere path rfl
      unfold FileTree.isFile at hfile
      split at hfile
      · rename_i place content hfound
        have hlines : Verb.reads (.cat path) world = Text.lines (Text.decode content) := by
          simp [Verb.reads, World.fileLines, FileTree.read?, hfound]
        rw [hlines]
        exact .cat hfound
      · cases hfile
  | ls =>
      by_cases hfound : ∃ place, world.files.locate true world.directory = .found place .directory
      · obtain ⟨place, hfound⟩ := hfound
        have hnames : Verb.reads .ls world = world.files.namesIn place := by
          simp [Verb.reads, World.listing, FileTree.list?_of_found hfound]
        rw [hnames]
        exact .ls hfound (FileTree.pairwise_namesIn _ _) (FileTree.mem_namesIn _ _)
      · have hmissing := fun place h => hfound ⟨place, h⟩
        have hnone : Verb.reads .ls world = [] := by
          simp [Verb.reads, World.listing, FileTree.list?_of_none hmissing]
        rw [hnone]
        exact .unlisted hmissing
  | pwd => exact .pwd
  | _ => cases hsource

private theorem reads_of_sourceLines {world : World} {source : Verb} {lines : List Text}
    (h : SourceLines world source lines) : source.reads world = lines := by
  cases h with
  | cat hfound => simp [Verb.reads, World.fileLines, FileTree.read?, hfound]
  | ls hfound hordered hcomplete =>
      simp [Verb.reads, World.listing, FileTree.list?_of_found hfound,
        FileTree.namesIn_eq hordered hcomplete]
  | unlisted hmissing => simp [Verb.reads, World.listing, FileTree.list?_of_none hmissing]
  | pwd => rfl

/-- A source has one list of lines. -/
theorem SourceLines.unique {world : World} {source : Verb} {first second : List Text}
    (h : SourceLines world source first) (hother : SourceLines world source second) :
    first = second :=
  (reads_of_sourceLines h).symm.trans (reads_of_sourceLines hother)

/-- A listing races with a redirect that makes a new file in the directory that is
listed. -/
def Races (world : World) (verbs : List Verb) : Prop :=
  ∃ path place, verbs.head? = some .ls ∧ verbs.getLast? = some (.redirect path) ∧
    world.files.locate true path = .vacant place ∧ world.files.access place = .full ∧
    world.files.locate true world.directory = .found place.dropLast .directory

variable {world seen : World} {source sink : Verb} {filters : List Verb}

/-- Where a new file is not listed, a source does not see it. -/
theorem reads_insert {place : Place} (hroot : place ≠ [])
    (hvacant : world.files.node? place = none) (hsource : source.isSource = true)
    (hthere : ∀ path, source = .cat path → world.files.isFile path = true)
    (hother : source = .ls →
      world.files.locate true world.directory ≠ .found place.dropLast .directory)
    (content : Bytes) :
    source.reads { world with files := world.files.insert place (.file content) } =
      source.reads world := by
  cases source with
  | cat path =>
      simp only [Verb.reads, World.fileLines,
        FileTree.read?_insert hroot hvacant (hthere path rfl) (.file content)]
  | ls => simp only [Verb.reads, World.listing, FileTree.list?_insert hroot hvacant (hother rfl)]
  | pwd => rfl
  | _ => cases hsource

/-- A world that a source may meet is the one from before the run, or the one right after
the redirect has made its file. -/
theorem Line.met_cases (h : Line world.files source filters sink) (hmet : Met world sink seen) :
    seen = world ∨ ∃ path place, sink = .redirect path ∧
      world.files.locate true path = .vacant place ∧ world.files.access place = .full ∧
      seen = { world with files := world.files.insert place (.file []) } := by
  obtain ⟨worker, hwrites⟩ := hmet
  have hsink := h.writes
  cases sink with
  | print =>
      left
      simpa using hwrites.world_of_print
  | redirect path =>
      rcases hwrites.world_of_receives (h.cleared path rfl) with
        rfl | ⟨place, before, bytes, hreceives, rfl, hbytes⟩
      · exact .inl rfl
      · obtain rfl : bytes = [] := List.prefix_nil.mp hbytes
        cases hreceives with
        | fresh hvacant hfull => exact .inr ⟨path, place, rfl, hvacant, hfull, rfl⟩
        | kept _ hfound =>
            left
            obtain ⟨hroot, hnode⟩ := FileTree.node?_of_found hfound nofun
            rw [List.append_nil, FileTree.insert_eq_self hroot hnode]
  | _ => cases hsink

/-- Where nothing races it does not matter when a source reads its lines. -/
theorem Line.reads_of_quiet (h : Line world.files source filters sink)
    (hmet : Met world sink seen) (hquiet : ¬ Races world (source :: filters ++ [sink])) :
    source.reads seen = source.reads world := by
  rcases h.met_cases hmet with rfl | ⟨path, place, rfl, hvacant, hfull, rfl⟩
  · rfl
  · obtain ⟨hroot, hnode⟩ := FileTree.node?_of_vacant hvacant
    refine reads_insert hroot hnode h.reads h.there ?_ []
    rintro rfl hlisted
    exact hquiet ⟨path, place, rfl, List.getLast?_concat, hvacant, hfull, hlisted⟩

end LineShell
