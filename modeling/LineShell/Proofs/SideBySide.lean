import LineShell.Proofs.Background
import LineShell.Proofs.Shadows

/-!
Lines in the background side by side. Where each writes to a file of its own that no
other looks at, the shell can start them while the earlier ones are at work, and
their workers can take their steps in any order: each comes to the end that it has
alone, in the foreground. The jobs share the console as well, where what they print
is merged. The invariant gives each job its shadow, the world in which it would have
been alone.
-/

namespace LineShell

/-- How lines are merged that come from several places: each line is one more of the
place that it comes from. -/
inductive IsMerge : List (List Text) → List Text → Prop
  | empty (count : Nat) : IsMerge (List.replicate count []) []
  | print {parts : List (List Text)} {whole part : List Text} {index : Nat}
      (before : IsMerge parts whole) (there : parts[index]? = some part) (line : Text) :
      IsMerge (parts.set index (part ++ [line])) (whole ++ [line])

namespace IsMerge

variable {parts : List (List Text)} {whole part : List Text} {index : Nat}

private theorem append (h : IsMerge parts whole) (hpart : parts[index]? = some part)
    (lines : List Text) : IsMerge (parts.set index (part ++ lines)) (whole ++ lines) := by
  induction lines using List.reverseRecOn with
  | nil =>
      obtain ⟨hindex, rfl⟩ := List.getElem?_eq_some_iff.mp hpart
      simpa using h
  | append_singleton lines line ih =>
      have hindex := (List.getElem?_eq_some_iff.mp hpart).1
      have hnext := ih.print (List.getElem?_set_self hindex) line
      rwa [List.set_set, List.append_assoc, List.append_assoc] at hnext

/-- One more place, from which nothing has come yet. -/
theorem widen (h : IsMerge parts whole) : IsMerge (parts ++ [[]]) whole := by
  induction h with
  | empty count => exact List.replicate_succ' ▸ .empty (count + 1)
  | @print parts whole part index _ hpart line ih =>
      have hindex := (List.getElem?_eq_some_iff.mp hpart).1
      have hlonger : (parts ++ [[]])[index]? = some part := by
        rw [List.getElem?_append_left hindex, hpart]
      have hnext := ih.print hlonger line
      rwa [List.set_append_left _ _ hindex] at hnext

end IsMerge

/-- The text of a move that takes a line. -/
def ShellMove.text? : ShellMove → Option Text
  | .line text => some text
  | .work _ _ => none

/-- The places of the files that some lines write to. -/
def Owned (origin : World) (tasks : List Task) (place : Place) : Prop :=
  ∃ task ∈ tasks, task.slot? origin = some place

/-- Lines that do not get in each other's way: they are accepted, none changes the
directory, no two write to the same file, and what one of them writes to is no file
that one of them reads, and is in no directory that one of them lists. -/
structure SideBySide (origin : World) (tasks : List Task) : Prop where
  linkless : origin.files.IsLinkless
  request : ∀ task ∈ tasks, Shell.request task.text = .pipeline task.command true
  accepted : ∀ task ∈ tasks,
    (CommandLine.build origin.directory origin.files task.command).2 = .ok task.pipeline
  stays : ∀ task ∈ tasks, ∀ change, .cd change ∉ task.pipeline.verbs
  apart : tasks.Pairwise fun one two =>
    ∀ place, one.slot? origin = some place → two.slot? origin ≠ some place
  unread : ∀ writer ∈ tasks, ∀ reader ∈ tasks, ∀ path place content,
    .cat path ∈ reader.pipeline.verbs →
      origin.files.locate true path = .found place (.file content) →
        writer.slot? origin ≠ some place
  unlisted : ∀ writer ∈ tasks, ∀ lister ∈ tasks, .ls ∈ lister.pipeline.verbs →
    ∀ place, writer.slot? origin = some place →
      origin.files.locate true origin.directory ≠ .found place.dropLast .directory

private theorem SideBySide.keepsTo {origin : World} {tasks : List Task}
    (h : SideBySide origin tasks)
    {task : Task} (htask : task ∈ tasks) : task.KeepsTo origin (Owned origin tasks) where
  request := h.request task htask
  made := h.accepted task htask
  stays := h.stays task htask
  reads := by
    rintro path place content hcat hfound ⟨writer, hwriter, hslot⟩
    exact h.unread writer hwriter task htask path place content hcat hfound hslot
  lists := by
    rintro hls place ⟨writer, hwriter, hslot⟩
    exact h.unlisted writer hwriter task htask hls place hslot
  writes := fun place hslot => ⟨task, htask, hslot⟩

private theorem Owned.mono {origin : World} {tasks more : List Task}
    (h : ∀ task ∈ tasks, task ∈ more)
    {place : Place} (howned : Owned origin tasks place) : Owned origin more place := by
  obtain ⟨task, htask, hslot⟩ := howned
  exact ⟨task, h task htask, hslot⟩

private theorem isOpen_of_owned {origin : World} {tasks : List Task} {place : Place}
    (h : Owned origin tasks place) : place ≠ [] ∧ origin.files.IsOpen place := by
  obtain ⟨task, -, hslot⟩ := h
  exact Pipeline.isOpen_of_slot? hslot

/-- A line that has been started: its pipeline as far as it has come, its shadow, and
what it has printed. -/
structure Lane where
  task : Task
  run : Run
  shadow : World
  printed : List Text

namespace Lane

/-- A line that has just been started. -/
def start (origin : World) (task : Task) : Lane :=
  { task, run := Run.start task.pipeline, shadow := task.alone origin, printed := [] }

/-- A line after one more step. -/
def moved (lane : Lane) (next : Run) (effect : Effect) : Lane :=
  { lane with
    run := next
    shadow := effect.apply lane.shadow
    printed := lane.printed ++ effect.printed }

private theorem map_task_moved {lanes : List Lane} {index : Nat} {lane : Lane}
    (h : lanes[index]? = some lane) (next : Run) (effect : Effect) :
    (lanes.set index (lane.moved next effect)).map task = lanes.map task :=
  Jobs.map_set_of_getElem? h rfl

/-- Whether a line has its shadow, which has printed what the line has. -/
structure Kept (lane : Lane) (origin : World) (files : FileTree) : Prop where
  shadowed : Shadowed origin lane.task lane.run lane.shadow files
  console : lane.shadow.console = origin.console ++ lane.printed

end Lane

/-- A shell whose lines are at work side by side. Pipelines that were started before
the first of them have nothing to do with the world any more, and the lines that have yet
to be started find their files as they were. -/
structure LanesAtWork (origin : World) (tasks : List Task) (earlier : List Run) (lanes : List Lane)
    (shell : Shell) : Prop where
  directory : shell.world.directory = origin.directory
  alike : FileTree.Alike (Owned origin (lanes.map Lane.task)) origin.files shell.world.files
  started : shell.jobs.started.map Job.run = earlier ++ lanes.map Lane.run
  idle : ∀ run ∈ earlier, run.IsIdle
  known : lanes.map Lane.task <+: tasks
  kept : ∀ (index : Nat) (lane : Lane), lanes[index]? = some lane →
    lane.Kept origin shell.world.files
  merged : ∃ merged, IsMerge (lanes.map Lane.printed) merged ∧
    shell.world.console = origin.console ++ merged

/-- Different lines write to different files. -/
theorem SideBySide.apart_lanes {origin : World} {tasks : List Task} (h : SideBySide origin tasks)
    {lanes : List Lane} (hknown : lanes.map Lane.task <+: tasks) {index other : Nat}
    {lane twin : Lane} (hlane : lanes[index]? = some lane) (htwin : lanes[other]? = some twin)
    (hother : index ≠ other) {place : Place} (hslot : twin.task.slot? origin = some place) :
    lane.task.slot? origin ≠ some place := by
  have hpairs := h.apart.sublist hknown.sublist
  rw [List.pairwise_map, List.pairwise_iff_getElem] at hpairs
  obtain ⟨hindex, rfl⟩ := List.getElem?_eq_some_iff.mp hlane
  obtain ⟨hbound, rfl⟩ := List.getElem?_eq_some_iff.mp htwin
  rcases Nat.lt_or_gt_of_ne hother with hbefore | hafter
  · exact fun hsame => hpairs index other hindex hbound hbefore place hsame hslot
  · exact hpairs other index hbound hindex hafter place hslot

namespace LanesAtWork

variable {origin : World} {tasks : List Task} {earlier : List Run} {lanes : List Lane}
  {shell after : Shell}

/-- Before the first line is started. -/
theorem start (hidle : shell.jobs.IsIdle) (tasks : List Task) :
    LanesAtWork shell.world tasks (shell.jobs.started.map Job.run) [] shell where
  directory := rfl
  alike := ⟨rfl, rfl, fun _ _ => rfl, fun _ howned => (isOpen_of_owned howned).2,
    fun _ howned => (isOpen_of_owned howned).2⟩
  started := (List.append_nil _).symm
  idle := List.forall_mem_map.mpr hidle
  known := List.nil_prefix
  kept := nofun
  merged := ⟨[], .empty 0, (List.append_nil _).symm⟩

/-- The world differs from the one at the start in files of the lines at most. -/
theorem widen (h : LanesAtWork origin tasks earlier lanes shell) {more : List Task}
    (hmore : ∀ task ∈ lanes.map Lane.task, task ∈ more) :
    FileTree.Alike (Owned origin more) origin.files shell.world.files :=
  h.alike.widen (fun _ => Owned.mono hmore) fun _ howned => (isOpen_of_owned howned).2

/-- A step of a pipeline that was there before changes nothing. -/
theorem work_earlier (h : LanesAtWork origin tasks earlier lanes shell) {place position : Nat}
    {run next : Run} {world : World} (hrun : earlier[place]? = some run)
    (hstep : run.stepAt position shell.world = some (next, world))
    (hworld : after.world = world)
    (hruns : after.jobs.started.map Job.run = (shell.jobs.started.map Job.run).set place next) :
    LanesAtWork origin tasks (earlier.set place next) lanes after := by
  have hmove : run.move shell.world (.step position) = some (next, world) := hstep
  obtain ⟨hidle, hsame⟩ := (h.idle run (List.mem_of_getElem? hrun)).move hmove
  obtain ⟨hplace, -⟩ := List.getElem?_eq_some_iff.mp hrun
  have hafter : after.world = shell.world := hworld.trans hsame
  refine ⟨hafter ▸ h.directory, hafter ▸ h.alike, ?_, ?_, h.known, hafter ▸ h.kept,
    hafter ▸ h.merged⟩
  · rw [hruns, h.started, List.set_append_left _ _ hplace]
  · intro other hother
    rcases List.mem_or_eq_of_mem_set hother with hold | rfl
    · exact h.idle other hold
    · exact hidle

/-- What one of the lines does is not seen by the others. -/
theorem kept_moved (h : LanesAtWork origin tasks earlier lanes shell)
    (htasks : SideBySide origin tasks) {index : Nat} {lane : Lane} {next : Run} {effect : Effect}
    (hlane : lanes[index]? = some lane)
    (hwithin : effect.Within (lane.task.slot? origin = some ·))
    (hshadow : Shadowed origin lane.task next (effect.apply lane.shadow)
      (effect.apply shell.world).files) {other : Nat} {twin : Lane}
    (htwin : (lanes.set index (lane.moved next effect))[other]? = some twin) :
    twin.Kept origin (effect.apply shell.world).files := by
  obtain ⟨hindex, -⟩ := List.getElem?_eq_some_iff.mp hlane
  rw [List.getElem?_set] at htwin
  split at htwin
  · obtain rfl := Option.some.inj htwin
    exact ⟨hshadow, by simp [Lane.moved, Effect.apply, (h.kept index lane hlane).console]⟩
  · rename_i hother
    obtain ⟨hframed, hconsole⟩ := h.kept other twin htwin
    have hroot : ¬ lane.task.slot? origin = some [] := fun hslot =>
      (Pipeline.isOpen_of_slot? hslot).1 rfl
    refine ⟨hframed.frame fun place hplace => ?_, hconsole⟩
    exact Effect.node?_apply_of_not_allowed hwithin hroot
      (htasks.apart_lanes h.known hlane htwin hother hplace)

/-- A step of one of the lines is one of its shadow. -/
theorem work_lane (h : LanesAtWork origin tasks earlier lanes shell)
    (htasks : SideBySide origin tasks) {index position : Nat} {lane : Lane} {next : Run}
    {world : World} (hlane : lanes[index]? = some lane)
    (hstep : lane.run.stepAt position shell.world = some (next, world))
    (hworld : after.world = world)
    (hruns : after.jobs.started.map Job.run =
      (shell.jobs.started.map Job.run).set (earlier.length + index) next) :
    ∃ effect,
      LanesAtWork origin tasks earlier (lanes.set index (lane.moved next effect)) after := by
  have htask : lane.task ∈ tasks :=
    h.known.subset (List.mem_map_of_mem (List.mem_of_getElem? hlane))
  obtain ⟨effect, rfl, hwithin, hshadow⟩ := (h.kept index lane hlane).shadowed.step
    (htasks.keepsTo htask) htasks.linkless (h.widen h.known.subset) h.directory hstep
  have howned : effect.Within (Owned origin (lanes.map Lane.task)) := fun target content hfilled =>
    ⟨lane.task, List.mem_map_of_mem (List.mem_of_getElem? hlane), hwithin target content hfilled⟩
  have hroot : ¬ Owned origin (lanes.map Lane.task) [] := fun howned =>
    (isOpen_of_owned howned).1 rfl
  refine ⟨effect, ?_, ?_, ?_, h.idle, ?_, ?_, ?_⟩
  · rw [hworld]
    exact h.directory
  · rw [hworld, Lane.map_task_moved hlane]
    exact Effect.alike_apply howned hroot h.alike
  · rw [hruns, h.started, List.set_append_right _ _ (Nat.le_add_right ..), Nat.add_sub_cancel_left,
      List.map_set]
    rfl
  · rw [Lane.map_task_moved hlane]
    exact h.known
  · intro other twin htwin
    rw [hworld]
    exact h.kept_moved htasks hlane hwithin hshadow htwin
  · obtain ⟨merged, hmerge, hconsole⟩ := h.merged
    have hpart : (lanes.map Lane.printed)[index]? = some lane.printed := by simp [hlane]
    refine ⟨merged ++ effect.printed, ?_, ?_⟩
    · rw [List.map_set]
      exact hmerge.append hpart effect.printed
    · simp [hworld, Effect.apply, hconsole]

/-- A step of any pipeline. -/
theorem work (h : LanesAtWork origin tasks earlier lanes shell) (htasks : SideBySide origin tasks)
    {place position : Nat} (hwork : shell.work place position = some after) :
    ∃ earlier' lanes', earlier'.length = earlier.length ∧
      lanes'.map Lane.task = lanes.map Lane.task ∧
      LanesAtWork origin tasks earlier' lanes' after := by
  obtain ⟨job, next, world, hjob, hstep, hafter⟩ := Shell.work_cases hwork
  have hrun : (earlier ++ lanes.map Lane.run)[place]? = some job.run := by
    rw [← h.started, List.getElem?_map, hjob, Option.map_some]
  have hworld : after.world = world := by rw [hafter]
  have hruns :
      after.jobs.started.map Job.run = (shell.jobs.started.map Job.run).set place next := by
    rw [hafter, List.map_set]
  rcases Nat.lt_or_ge place earlier.length with hearly | hlate
  · rw [List.getElem?_append_left hearly] at hrun
    exact ⟨_, lanes, List.length_set, rfl, h.work_earlier hrun hstep hworld hruns⟩
  · rw [List.getElem?_append_right hlate, List.getElem?_map] at hrun
    obtain ⟨lane, hlane, hsame⟩ := Option.map_eq_some_iff.mp hrun
    rw [← Nat.add_sub_cancel' hlate] at hruns
    obtain ⟨effect, hmoved⟩ := h.work_lane htasks hlane (hsame ▸ hstep) hworld hruns
    exact ⟨earlier, _, rfl, Lane.map_task_moved hlane next effect, hmoved⟩

/-- A further line is made into its own pipeline and begins at the side of the
others. -/
theorem line (h : LanesAtWork origin tasks earlier lanes shell) (htasks : SideBySide origin tasks)
    {task : Task} (hnext : lanes.map Lane.task ++ [task] <+: tasks) :
    LanesAtWork origin tasks earlier (lanes ++ [Lane.start origin task])
      (shell.execute task.text).1 := by
  have htask : task ∈ tasks :=
    hnext.subset (List.mem_append_right _ List.mem_cons_self)
  have hkeeps := htasks.keepsTo htask
  have hknown : (lanes ++ [Lane.start origin task]).map Lane.task <+: tasks := by
    simpa [Lane.start] using hnext
  -- What it writes to is still as it was, since no line has been started that writes to it.
  have huntouched : ∀ place, task.slot? origin = some place →
      shell.world.files.node? place = origin.files.node? place := by
    intro place hplace
    refine h.alike.same place ?_
    rintro ⟨other, hother, hslot⟩
    obtain ⟨lane, hlane, rfl⟩ := List.mem_map.mp hother
    obtain ⟨index, hindex⟩ := List.getElem?_of_mem hlane
    have hbound := (List.getElem?_eq_some_iff.mp hindex).1
    exact htasks.apart_lanes hknown ((List.getElem?_append_left hbound).trans hindex)
      (List.getElem?_concat_length ..) (Nat.ne_of_lt hbound) hplace hslot
  have hthere : FileTree.Alike (Owned origin ((lanes ++ [Lane.start origin task]).map Lane.task))
      origin.files shell.world.files := h.widen (by simp +contextual)
  obtain ⟨emptied, hbuild, halike, hnodes⟩ := CommandLine.build_of_alike hthere htasks.linkless
    hkeeps.build hkeeps.stays
    (fun path place content hcat hfound howned =>
      hkeeps.reads path place content hcat hfound (howned.mono hknown.subset))
    (fun place hslot => ⟨task, by simp [Lane.start], hslot⟩)
  obtain ⟨-, -, hemptied⟩ := CommandLine.node?_of_build htasks.linkless hkeeps.build
  rw [← h.directory] at hbuild
  rw [Shell.execute_of_request hkeeps.request, (Shell.runPipeline_of_ok hbuild).2]
  refine ⟨h.directory, halike, ?_, h.idle, hknown, ?_, ?_⟩
  · simp [Jobs.register, h.started, Lane.start]
  · intro index lane hlane
    by_cases hold : index < lanes.length
    · rw [List.getElem?_append_left hold] at hlane
      obtain ⟨hframed, hconsole⟩ := h.kept index lane hlane
      refine ⟨hframed.frame fun place hplace =>
        (hnodes place).trans (if_neg fun hboth => absurd hboth.1 ?_), hconsole⟩
      exact htasks.apart_lanes hknown (List.getElem?_concat_length ..)
        ((List.getElem?_append_left hold).trans hlane) (Nat.ne_of_gt hold) hplace
    · have hbound := (List.getElem?_eq_some_iff.mp hlane).1
      rw [List.length_append, List.length_singleton] at hbound
      obtain rfl : index = lanes.length := by omega
      obtain rfl : Lane.start origin task = lane := by simpa using hlane
      refine ⟨Shadowed.start hkeeps htasks.linkless fun place hplace => ?_,
        (List.append_nil _).symm⟩
      rw [hnodes, hemptied, huntouched place hplace]
  · obtain ⟨merged, hmerge, hconsole⟩ := h.merged
    refine ⟨merged, ?_, hconsole⟩
    rw [List.map_append]
    exact hmerge.widen

/-- Along every run, as long as the lines are the ones that go together. -/
theorem of_follow (hidle : shell.jobs.IsIdle) (htasks : SideBySide shell.world tasks)
    {moves : List ShellMove} (hfollow : shell.follow moves = some after)
    (hlines : moves.filterMap ShellMove.text? <+: tasks.map Task.text) :
    ∃ earlier lanes, earlier.length = shell.jobs.started.length ∧
      (lanes.map Lane.task).map Task.text = moves.filterMap ShellMove.text? ∧
      LanesAtWork shell.world tasks earlier lanes after := by
  refine Shell.follow_induction (motive := fun moves after =>
    moves.filterMap ShellMove.text? <+: tasks.map Task.text →
      ∃ earlier lanes, earlier.length = shell.jobs.started.length ∧
        (lanes.map Lane.task).map Task.text = moves.filterMap ShellMove.text? ∧
        LanesAtWork shell.world tasks earlier lanes after) ?_ ?_ hfollow hlines
  · intro _
    exact ⟨shell.jobs.started.map Job.run, [], List.length_map _, rfl, start hidle tasks⟩
  · intro moves before move after _ ih hmove hlines
    rw [List.filterMap_append] at hlines ⊢
    obtain ⟨earlier, lanes, hcount, htexts, hatWork⟩ := ih ((List.prefix_append ..).trans hlines)
    cases move with
    | work place position =>
        obtain ⟨earlier', lanes', hsame, hknown, hafter⟩ := hatWork.work htasks hmove
        refine ⟨earlier', lanes', hsame.trans hcount, ?_, hafter⟩
        rw [hknown, htexts]
        exact (List.append_nil _).symm
    | line text =>
        obtain rfl := Option.some.inj hmove
        obtain ⟨rest, hrest⟩ := hatWork.known
        rw [← hrest, List.map_append, htexts, List.prefix_append_right_inj] at hlines
        cases rest with
        | nil => simp [ShellMove.text?] at hlines
        | cons task rest =>
            obtain rfl : text = task.text := by simpa [ShellMove.text?] using hlines
            refine ⟨earlier, lanes ++ [Lane.start shell.world task], hcount, ?_,
              hatWork.line htasks ⟨rest, by simpa using hrest⟩⟩
            simp [Lane.start, ShellMove.text?, htexts]

end LanesAtWork

/-- What is left when some lines have run side by side: each has written, printed and
answered what it does in the foreground, in the shell that they were started
in, and nothing else has changed. -/
structure AsAlone (shell : Shell) (tasks : List Task) (after : Shell) : Prop where
  destinations : ∀ task ∈ tasks, ∀ path, .redirect path ∈ task.pipeline.verbs →
    after.world.files.read? path =
      (shell.runPipeline task.command false).1.world.files.read? path
  slots : ∀ task ∈ tasks, ∀ place, task.slot? shell.world = some place →
    after.world.files.node? place =
      (shell.runPipeline task.command false).1.world.files.node? place
  elsewhere : ∀ place, ¬ Owned shell.world tasks place →
    after.world.files.node? place = shell.world.files.node? place
  directory : after.world.directory = shell.world.directory
  console : ∃ printed merged,
    List.Forall₂ (fun task lines =>
        (shell.runPipeline task.command false).1.world.console = shell.world.console ++ lines)
      tasks printed ∧
    IsMerge printed merged ∧ after.world.console = shell.world.console ++ merged
  results : List.Forall₂ (fun task run =>
      run.result.ok = true ∧ (shell.runPipeline task.command false).2 =
        .ok (if run.result.exitRequested then .exit else .completed run.result))
    tasks ((after.jobs.started.map Job.run).drop shell.jobs.started.length)

private theorem AsAlone.of_sight {shell after other : Shell} {tasks : List Task}
    (h : AsAlone shell tasks after) (hsight : other.sight = after.sight) :
    AsAlone shell tasks other := by
  obtain ⟨hworld, hruns⟩ := Prod.mk.inj hsight
  exact ⟨hworld ▸ h.destinations, hworld ▸ h.slots, hworld ▸ h.elsewhere, hworld ▸ h.directory,
    hworld ▸ h.console, hruns ▸ h.results⟩

namespace LanesAtWork

variable {tasks : List Task} {earlier : List Run} {lanes : List Lane} {shell after : Shell}

/-- A line that cannot go on has come to the end that it has in the foreground. -/
theorem ended (h : LanesAtWork shell.world tasks earlier lanes after)
    (htasks : SideBySide shell.world tasks)
    (hended : ∀ place position, after.work place position = none) {lane : Lane}
    (hlane : lane ∈ lanes) :
    lane.Kept shell.world after.world.files ∧
      lane.shadow = (shell.runPipeline lane.task.command false).1.world ∧
      lane.run.result.ok = true ∧
      (shell.runPipeline lane.task.command false).2 =
        .ok (if lane.run.result.exitRequested then .exit else .completed lane.run.result) := by
  obtain ⟨index, hindex⟩ := List.getElem?_of_mem hlane
  have hkept := h.kept index lane hindex
  have hkeeps := htasks.keepsTo (h.known.subset (List.mem_map_of_mem hlane))
  have hrest : ∀ position, lane.run.stepAt position after.world = none := by
    intro position
    have hrun : (after.jobs.started.map Job.run)[earlier.length + index]? = some lane.run := by
      rw [h.started, List.getElem?_append_right (Nat.le_add_right ..), Nat.add_sub_cancel_left,
        List.getElem?_map, hindex, Option.map_some]
    rw [List.getElem?_map] at hrun
    obtain ⟨job, hjob, hsame⟩ := Option.map_eq_some_iff.mp hrun
    rw [← hsame]
    simpa [Shell.work, Jobs.work, hjob] using hended (earlier.length + index) position
  obtain ⟨hresult, hok, hshadow⟩ := hkept.shadowed.ended hkeeps htasks.linkless hrest
  refine ⟨hkept, ?_, hok, ?_⟩
  · rw [hshadow, (Shell.runPipeline_of_ok hkeeps.build).1]
    rfl
  · rw [hresult, (Shell.runPipeline_of_ok hkeeps.build).1]
    rfl

/-- What is left when none of the lines can go on. -/
theorem asAlone (h : LanesAtWork shell.world (lanes.map Lane.task) earlier lanes after)
    (htasks : SideBySide shell.world (lanes.map Lane.task))
    (hcount : earlier.length = shell.jobs.started.length)
    (hended : ∀ place position, after.work place position = none) :
    AsAlone shell (lanes.map Lane.task) after := by
  have hlanes : ∀ lane ∈ lanes, _ := fun lane hlane => h.ended htasks hended hlane
  refine ⟨List.forall_mem_map.mpr ?_, List.forall_mem_map.mpr ?_, h.alike.same, h.directory, ?_, ?_⟩
  · intro lane hlane path hpath
    obtain ⟨hkept, hshadow, -⟩ := hlanes lane hlane
    have hkeeps := htasks.keepsTo (List.mem_map_of_mem hlane)
    have halone := hkept.shadowed.alike.widen hkeeps.writes h.alike.left
    have hslot := hkeeps.slot?_of_redirect hpath
    have hwrites : ∀ place, shell.world.files.slot? path = some place → _ :=
      fun place hplace => hkeeps.writes place (hslot.trans hplace)
    rw [← hshadow]
    refine (halone.symm.trans h.alike).read?_of_slot? fun place hplace => ?_
    rw [halone.slot? hwrites, ← hslot] at hplace
    exact hkept.shadowed.slot place hplace
  · intro lane hlane place hplace
    obtain ⟨hkept, hshadow, -⟩ := hlanes lane hlane
    rw [← hshadow]
    exact hkept.shadowed.slot place hplace
  · obtain ⟨merged, hmerge, hconsole⟩ := h.merged
    refine ⟨lanes.map Lane.printed, merged, ?_, hmerge, hconsole⟩
    rw [List.forall₂_map_left_iff, List.forall₂_map_right_iff, List.forall₂_same]
    intro lane hlane
    obtain ⟨hkept, hshadow, -⟩ := hlanes lane hlane
    rw [← hshadow]
    exact hkept.console
  · rw [h.started, List.drop_left' hcount, List.forall₂_map_left_iff, List.forall₂_map_right_iff,
      List.forall₂_same]
    intro lane hlane
    obtain ⟨-, -, hok, hanswer⟩ := hlanes lane hlane
    exact ⟨hok, hanswer⟩

end LanesAtWork

private theorem ShellMove.texts_steps (order : List (Nat × Nat)) :
    (Shell.steps order).filterMap text? = [] := by
  rw [List.filterMap_eq_nil_iff]
  intro move hmove
  obtain ⟨_, -, rfl⟩ := List.mem_map.mp hmove
  rfl

/-- Lines that do not get in each other's way can be started in the background, and
their workers can take their steps in any order, also before the last line is
started: when none can take a further step, each line has left what it leaves
alone. So it has when the shell waits for them, which it can do at any moment after
their start. -/
theorem Shell.side_by_side {shell after : Shell} {tasks : List Task} {moves : List ShellMove}
    (hidle : shell.jobs.IsIdle) (htasks : SideBySide shell.world tasks)
    (hlines : moves.filterMap ShellMove.text? = tasks.map Task.text)
    (hfollow : shell.follow moves = some after) :
    ((∀ place position, after.work place position = none) → AsAlone shell tasks after) ∧
      AsAlone shell tasks after.waitBackground.1 := by
  have hall {moves : List ShellMove} {after : Shell}
      (hlines : moves.filterMap ShellMove.text? = tasks.map Task.text)
      (hfollow : shell.follow moves = some after)
      (hended : ∀ place position, after.work place position = none) :
      AsAlone shell tasks after := by
    obtain ⟨earlier, lanes, hcount, htexts, hatWork⟩ :=
      LanesAtWork.of_follow hidle htasks hfollow (hlines ▸ List.prefix_rfl)
    have hlength : (lanes.map Lane.task).length = tasks.length := by
      simpa using congrArg List.length (htexts.trans hlines)
    obtain rfl := hatWork.known.eq_of_length hlength
    exact hatWork.asAlone htasks hcount hended
  refine ⟨hall hlines hfollow, ?_⟩
  -- To wait is to take the remaining steps in one of the orders.
  obtain ⟨order, hmore⟩ := after.follow_settle
  have hboth : shell.follow (moves ++ steps order) = some after.settle := by
    rw [follow_append, hfollow]
    exact hmore
  refine (hall ?_ hboth after.work_settle).of_sight after.sight_waitBackground
  rw [List.filterMap_append, ShellMove.texts_steps, List.append_nil, hlines]

namespace Sample

/-- Two lines that read the same file: one writes to another, and one prints. -/
def tasks : List Task :=
  [{ text := line ++ " &".toList, command := line, pipeline := pipeline },
   { text := "cat f &".toList
     command := "cat f".toList
     pipeline := {
       command := "cat f".toList
       stages := Stage.rowFrom false
         [("cat f".toList, .cat "/f".toList), ("print".toList, .print)] } }]

private theorem linkless : tree.IsLinkless := by
  intro place text hnode
  rw [tree, FileTree.node?_insert (by decide)] at hnode
  split at hnode
  · cases hnode
  · by_cases hroot : place = [] <;> simp [FileTree.node?, FileTree.empty, hroot] at hnode

private theorem slot?_tasks : ∀ task ∈ tasks,
    task.slot? shell.world = some ["g".toList] ∨ task.slot? shell.world = none := by
  decide +kernel

private theorem verbs_tasks : ∀ task ∈ tasks, ∀ verb ∈ task.pipeline.verbs,
    verb ∈ [.cat "/f".toList, .uniq, .redirect "/g".toList, .print] := by
  decide +kernel

private theorem sideBySide : SideBySide shell.world tasks where
  linkless := linkless
  request := by decide +kernel
  accepted := by decide +kernel
  stays := by
    intro task htask change hcd
    simpa using verbs_tasks task htask _ hcd
  apart := by
    refine List.pairwise_pair.mpr fun place _ hsame => ?_
    have hnone : (tasks[1]).slot? shell.world = none := by decide +kernel
    cases hnone.symm.trans hsame
  unread := by
    intro writer hwriter reader hreader path place content hcat hfound hslot
    have hpath : path = "/f".toList := by simpa using verbs_tasks reader hreader _ hcat
    have hfile : shell.world.files.locate true "/f".toList =
        .found ["f".toList] (.file (Text.encode "b\na\nb\n".toList)) := by
      decide +kernel
    rw [hpath, hfile] at hfound
    obtain ⟨rfl, -⟩ := FileTree.Destination.found.inj hfound
    rcases slot?_tasks writer hwriter with hwrites | hnone
    · cases hwrites.symm.trans hslot
    · cases hnone.symm.trans hslot
  unlisted := by
    intro _ _ lister hlister hls
    simpa using verbs_tasks lister hlister _ hls

/-- The first line is at work when the second is started. -/
def moves : List ShellMove :=
  [.line (line ++ " &".toList), .work 0 0, .line "cat f &".toList, .work 1 0, .work 0 0]

end Sample

theorem Shell.side_by_side_sample :
    Sample.shell.jobs.IsIdle ∧ SideBySide Sample.shell.world Sample.tasks ∧
      Sample.moves.filterMap ShellMove.text? = Sample.tasks.map Task.text ∧
      ∃ after, Sample.shell.follow Sample.moves = some after ∧
        AsAlone Sample.shell Sample.tasks after.waitBackground.1 := by
  have hidle : Sample.shell.jobs.IsIdle := nofun
  have hmoves : (Sample.shell.follow Sample.moves).isSome = true := by decide +kernel
  obtain ⟨after, hfollow⟩ := Option.isSome_iff_exists.mp hmoves
  exact ⟨hidle, Sample.sideBySide, rfl, after, hfollow,
    (side_by_side hidle Sample.sideBySide rfl hfollow).2⟩

end LineShell
