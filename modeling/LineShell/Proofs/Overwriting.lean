import LineShell.Proofs.AlikeTrees
import LineShell.Proofs.Background

/-!
What was in a destination before. A redirect at the end of a line is made before
anything else looks at the file tree, and removes the file that its path names, if the
shell may do so. Two trees that differ in that file alone are then the same tree from
there on, and nothing that the line does or answers depends on what the file has held. A
file that stays keeps what it has held in front of the lines.
-/

namespace LineShell

namespace FileTree

/-- The trees that have another file at a place, or none. -/
inductive Refilled (tree : FileTree) (place : Place) : FileTree → Prop
  | file (content : Bytes) : Refilled tree place (tree.insert place (.file content))
  | absent : Refilled tree place (tree.erase place)

variable {tree other : FileTree} {place : Place} {path : Text} {content : Bytes}

private theorem erase_insert (tree : FileTree) (place : Place) (node : Node) :
    (tree.insert place node).erase place = tree.erase place := by
  have hnodes : (tree.nodes.insert place node).erase place = tree.nodes.erase place := by
    ext entry
    simp only [Std.ExtTreeMap.getElem?_erase, Std.ExtTreeMap.getElem?_insert]
    split <;> rfl
  simp [insert, erase, hnodes]

private theorem Refilled.isOpen (hplace : place ≠ []) (h : tree.Refilled place other) :
    other.IsOpen place := by
  cases h with
  | file bytes => exact .inr ⟨bytes, by simp [node?_insert hplace]⟩
  | absent => exact .inl (by simp [node?_erase hplace])

private theorem Refilled.alike (hnode : tree.node? place = some (.file content))
    (hplace : place ≠ [])
    (h : tree.Refilled place other) : Alike (· = place) tree other := by
  refine ⟨by cases h <;> rfl, by cases h <;> rfl, ?_, ?_, ?_⟩
  · intro entry hentry
    cases h with
    | file bytes => rw [node?_insert hplace, if_neg (Ne.symm hentry)]
    | absent => rw [node?_erase hplace, if_neg (Ne.symm hentry)]
  · rintro _ rfl
    exact .inr ⟨content, hnode⟩
  · rintro _ rfl
    exact h.isOpen hplace

/-- Once a redirect has been made, it does not show what its path led to, if that could be
removed. -/
theorem Refilled.clearFor (hnamed : tree.locate false path = .found place (.file content))
    (hfull : tree.access place = .full) (h : tree.Refilled place other) :
    CommandLine.clearFor other (.redirect path) = CommandLine.clearFor tree (.redirect path) := by
  obtain ⟨hplace, hnode⟩ := node?_of_found hnamed nofun
  have hend (follow : Bool) (hfound : tree.locate follow path = .found place (.file content)) :
      other.locate follow path = other.atEnd place :=
    (h.alike hnode hplace).atEnd rfl (by rw [hfound, atEnd, hnode])
  rw [clearFor_of_named hnamed, if_pos hfull]
  cases h with
  | file bytes =>
      have hother : (tree.insert place (.file bytes)).locate false path =
          .found place (.file bytes) := by
        rw [hend false hnamed, atEnd, node?_insert hplace, if_pos rfl]
      rw [clearFor_of_named hother, if_pos (show (tree.insert place _).access place = _ from hfull),
        erase_insert]
  | absent =>
      have hother : (tree.erase place).locate true path = .vacant place := by
        rw [hend true (followed_of_named hnamed), atEnd, node?_erase hplace, if_pos rfl]
      simp [CommandLine.clearFor, isFile, hother]

end FileTree

/-- A line with a redirect at its end is made in the tree that the redirect leaves. -/
theorem CommandLine.build_of_clearFor {directory line user after argument : Text}
    {tree other : FileTree} (hredirect : LastRedirect line user after)
    (hargument : CommandLine.argument (Text.trim ('>' :: after)) = .ok argument)
    (hclear : clearFor other (.redirect (Path.resolve directory argument)) =
      clearFor tree (.redirect (Path.resolve directory argument))) :
    build directory other line = build directory tree line := by
  have hmade : makeEnding directory (some ('>' :: after)) = .ok
      { command := Text.trim ('>' :: after)
        verb := .redirect (Path.resolve directory argument) } := by
    simp [makeEnding, makeRedirect, hargument, bind, Except.bind]
  simp only [build, splitEnding_of_lastRedirect hredirect, hmade, hclear]

namespace Shell

/-- A line with a `>` in it asks for a pipeline, unless it is a command to kill. -/
theorem request_of_mark {line command : Text} {background : Bool}
    (hcommand : splitBackground (Text.trim line) = (command, background))
    (hmark : '>' ∈ command) (hkill : CommandLine.hasWord command killWord = false) :
    request line = .pipeline command background := by
  have hline : '>' ∈ Text.trim line := by
    unfold splitBackground at hcommand
    split at hcommand
    · obtain ⟨rfl, -⟩ := Prod.mk.inj hcommand
      exact List.dropLast_subset _ (Text.mem_of_mem_trim hmark)
    · obtain ⟨rfl, -⟩ := Prod.mk.inj hcommand
      exact hmark
  have hother {text : Text} (word : Text) (hmark : '>' ∈ text) (hword : '>' ∉ word) :
      text ≠ word := by
    rintro rfl
    exact hword hmark
  simp [request, hother [] hline (by decide), hother exitWord hline (by decide), hcommand,
    hother [] hmark (by decide), hother jobsWord hmark (by decide), hkill]

/-- The earlier content of a destination that may be removed does not show. Whether it was
a file with some content, or was not there, a line that ends in a redirect to it answers
the same and leaves the same shell, in the foreground as well as in the background,
whether it is refused or not. Where nothing races, that is so whatever the order in which
its workers take their steps from either tree. -/
theorem execute_forgets {shell : Shell} {other : FileTree}
    {line command user after argument : Text} {background : Bool} {place : Place} {content : Bytes}
    (hcommand : splitBackground (Text.trim line) = (command, background))
    (hkill : CommandLine.hasWord command killWord = false)
    (hredirect : CommandLine.LastRedirect command user after)
    (hargument : CommandLine.argument (Text.trim ('>' :: after)) = .ok argument)
    (hfile : shell.world.files.locate false (Path.resolve shell.world.directory argument) =
      .found place (.file content))
    (hremovable : shell.world.files.access place = .full)
    (hother : shell.world.files.Refilled place other) :
    let twin : Shell := { shell with world := { shell.world with files := other } }
    twin.execute line = shell.execute line ∧
      (twin.execute line).1.waitBackground = (shell.execute line).1.waitBackground ∧
      ∀ files pipeline,
        CommandLine.build shell.world.directory shell.world.files command =
            (files, .ok pipeline) →
          ¬ Races { shell.world with files } pipeline.verbs →
        ∃ (result : RunResult) (later : World),
          (∀ (order : List Nat) (last : Run) (world : World),
            (Run.start pipeline).follow { shell.world with files } (order.map .step) =
                some (last, world) →
              (∀ position, last.stepAt position world = none) →
                last.result = result ∧ world = later) ∧
          (background = false → (twin.execute line).1.world = later) ∧
          (background = true → shell.jobs.held = [] → ∀ order last,
            (twin.execute line).1.follow (steps order) = some last →
              last.waitBackground.2 = [(shell.jobs.nextId, result)] ∧
              (shell.jobs.IsIdle → last.waitBackground.1.world = later)) := by
  intro twin
  have hmark : '>' ∈ command := by
    rw [hredirect.1]
    exact List.mem_append_right _ List.mem_cons_self
  have hrequest := request_of_mark hcommand hmark hkill
  have hbuild : CommandLine.build shell.world.directory other command =
      CommandLine.build shell.world.directory shell.world.files command :=
    CommandLine.build_of_clearFor hredirect hargument
      (hother.clearFor hfile hremovable)
  have hsame : twin.execute line = shell.execute line := by
    rw [execute_of_request hrequest, execute_of_request hrequest]
    simp only [runPipeline, twin, hbuild]
  refine ⟨hsame, by rw [hsame], fun files pipeline hmade hraces => ?_⟩
  have hbegins : Begins { shell.world with files } pipeline.verbs (Run.start pipeline) :=
    CommandLine.begins_of_build hmade
  obtain ⟨hsettled, hlater⟩ := hbegins.settle hraces
  refine ⟨((Run.start pipeline).settle { shell.world with files }).1.result,
    ((Run.start pipeline).settle { shell.world with files }).2, ?_, ?_, ?_⟩
  · intro order last world hfollow hstuck
    obtain ⟨-, hresult, hworld⟩ := hbegins.outcome hraces hfollow hstuck
    exact ⟨hresult.trans hsettled.symm, hworld.trans hlater.symm⟩
  · rintro rfl
    rw [hsame, execute_of_request hrequest, (runPipeline_of_ok hmade).1]
    rfl
  · rintro rfl hempty order last hfollow
    rw [hsame, execute_of_request hrequest] at hfollow
    exact waits_of_build hmade hraces hempty hfollow

end Shell

/-- The shell with a file at the destination before the line writes to it. -/
def Sample.occupied : Shell :=
  { shell with
    world := { shell.world with files := tree.insert ["g".toList] (.file [0x61]) } }

theorem Shell.execute_forgets_sample :
    splitBackground (Text.trim Sample.line) = (Sample.line, false) ∧
      CommandLine.hasWord Sample.line killWord = false ∧
      CommandLine.LastRedirect Sample.line "cat f | uniq ".toList " g".toList ∧
      CommandLine.argument (Text.trim "> g".toList) = .ok "g".toList ∧
      Sample.occupied.world.files.locate false
          (Path.resolve Sample.occupied.world.directory "g".toList) =
        .found ["g".toList] (.file [0x61]) ∧
      Sample.occupied.world.files.access ["g".toList] = .full ∧
      ({ Sample.occupied with
        world := { Sample.occupied.world with
          files := Sample.occupied.world.files.erase ["g".toList] } } : Shell).execute Sample.line =
        Sample.occupied.execute Sample.line := by
  have hcommand : splitBackground (Text.trim Sample.line) = (Sample.line, false) := by
    decide +kernel
  have hkill : CommandLine.hasWord Sample.line killWord = false := by decide +kernel
  have hredirect : CommandLine.LastRedirect Sample.line "cat f | uniq ".toList " g".toList :=
    ⟨by decide +kernel, by decide +kernel, by decide +kernel⟩
  have hargument : CommandLine.argument (Text.trim "> g".toList) = .ok "g".toList := by
    decide +kernel
  have hfile : Sample.occupied.world.files.locate false
      (Path.resolve Sample.occupied.world.directory "g".toList) =
        .found ["g".toList] (.file [0x61]) := by decide +kernel
  exact ⟨hcommand, hkill, hredirect, hargument, hfile, rfl,
    (execute_forgets hcommand hkill hredirect hargument hfile rfl .absent).1⟩

/-- The shell with a file at the destination that may be written to but not removed. -/
def Sample.guardedShell : Shell :=
  { shell with world := { shell.world with files := guarded } }

/-- What a destination has held shows where it may not be removed: the lines come behind
it. -/
theorem Shell.execute_shows_guarded :
    splitBackground (Text.trim Sample.line) = (Sample.line, false) ∧
      CommandLine.hasWord Sample.line killWord = false ∧
      CommandLine.LastRedirect Sample.line "cat f | uniq ".toList " g".toList ∧
      CommandLine.argument (Text.trim "> g".toList) = .ok "g".toList ∧
      Sample.guardedShell.world.files.locate false
          (Path.resolve Sample.guardedShell.world.directory "g".toList) =
        .found ["g".toList] (.file (Text.encode "c\n".toList)) ∧
      ¬ ∀ other, Sample.guardedShell.world.files.Refilled ["g".toList] other →
        (({ Sample.guardedShell with
          world := { Sample.guardedShell.world with files := other } } : Shell).execute
            Sample.line).1.world.files =
          (Sample.guardedShell.execute Sample.line).1.world.files := by
  refine ⟨by decide +kernel, by decide +kernel,
    ⟨by decide +kernel, by decide +kernel, by decide +kernel⟩, by decide +kernel,
    by decide +kernel, fun hall => ?_⟩
  have hsame := hall _ (.file (Text.encode "d\n".toList))
  have hread := congrArg (FileTree.read? · "/g".toList) hsame
  revert hread
  decide +kernel

end LineShell
