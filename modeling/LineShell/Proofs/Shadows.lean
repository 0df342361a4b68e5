import LineShell.Shell
import LineShell.Proofs.JobSteps
import LineShell.Proofs.Slots
import LineShell.Proofs.StepWorlds

/-!
A line among others, and the same line alone. Whatever the others do to files of
their own, each step that the line takes among them it could take in a world of its
own, in which it was started alone, and does the same there. That world is its
shadow: in the line's own file the two worlds never differ.
-/

namespace LineShell

/-- A line for the background, the command that it asks for, and the pipeline that the
command is made into. -/
structure Task where
  text : Text
  command : Text
  pipeline : Pipeline

namespace Task

/-- The world in which the line is started when it is alone. -/
def alone (task : Task) (origin : World) : World :=
  { origin with files := (CommandLine.build origin.directory origin.files task.command).1 }

/-- The place of the file that the line writes to. -/
def slot? (task : Task) (origin : World) : Option Place :=
  task.pipeline.slot? origin.files

/-- A line that is accepted, changes no directory, and neither reads nor lists what is
written at some places, one of which is its own. -/
structure KeepsTo (task : Task) (origin : World) (spare : Place → Prop) : Prop where
  request : Shell.request task.text = .pipeline task.command true
  made : (CommandLine.build origin.directory origin.files task.command).2 = .ok task.pipeline
  stays : ∀ change, .cd change ∉ task.pipeline.verbs
  reads : ∀ path place content, .cat path ∈ task.pipeline.verbs →
    origin.files.locate true path = .found place (.file content) → ¬ spare place
  lists : .ls ∈ task.pipeline.verbs → ∀ place, spare place →
    origin.files.locate true origin.directory ≠ .found place.dropLast .directory
  writes : ∀ place, task.slot? origin = some place → spare place

variable {task : Task} {origin : World} {spare : Place → Prop}

theorem KeepsTo.build (h : task.KeepsTo origin spare) :
    CommandLine.build origin.directory origin.files task.command =
      ((task.alone origin).files, .ok task.pipeline) :=
  Prod.ext rfl h.made

theorem KeepsTo.slot?_of_redirect (h : task.KeepsTo origin spare) {path : Text}
    (hpath : .redirect path ∈ task.pipeline.verbs) :
    task.slot? origin = origin.files.slot? path := by
  have hlast := (CommandLine.row_of_build h.build).1.getLast?_of_redirect hpath
  exact task.pipeline.slot?_of_redirect hlast origin.files

end Task

/-- A verb that begins in the same way in two worlds and does the same there. What it
opens is among some places, or is a device of the tree that both have come from. -/
structure Verb.StartsAlike (allowed : Place → Prop) (tree : FileTree) (one two : World)
    (verb : Verb) : Prop where
  begins : (Body.start two verb).1 = (Body.start one verb).1
  acts : Worker.ActsAlike allowed (.running (.fresh verb)) one two
  opened : ∀ path files place, verb = .redirect path →
    one.files.openFile? path = some (files, place) →
      allowed place ∨ tree.node? place = some .device

namespace Verb.StartsAlike

variable {allowed : Place → Prop} {spare : Place → Prop} {tree : FileTree} {one two : World}
  {path : Text}

/-- A verb that changes nothing when it begins. -/
theorem of_idle {verb : Verb} (hbegins : (Body.start two verb).1 = (Body.start one verb).1)
    (hone : (Body.start one verb).2 = one) (htwo : (Body.start two verb).2 = two)
    (hverb : ∀ path, verb ≠ .redirect path) : StartsAlike allowed tree one two verb :=
  ⟨hbegins, Worker.actsAlike_of_idle hone htwo,
    fun path _ _ hredirect => absurd hredirect (hverb path)⟩

/-- A redirect that opens nothing in either world. -/
theorem of_closed (hone : one.files.openFile? path = none)
    (htwo : two.files.openFile? path = none) :
    StartsAlike allowed tree one two (.redirect path) := by
  refine ⟨by simp [Body.start, hone, htwo], ?_, ?_⟩
  · exact Worker.actsAlike_of_idle (by simp [Worker.alter, Body.start, hone])
      (by simp [Worker.alter, Body.start, htwo])
  · rintro other files target hredirect hfile
    obtain rfl := Verb.redirect.inj hredirect
    rw [hone] at hfile
    cases hfile

/-- A redirect opens its slot, and makes the file if it is missing, where that is
allowed. -/
theorem of_slot {place : Place} (hone : one.files.slot? path = some place)
    (htwo : two.files.slot? path = some place)
    (hsame : two.files.node? place = one.files.node? place)
    (haccess : two.files.access = one.files.access) :
    StartsAlike (· = place) tree one two (.redirect path) := by
  have hopen := FileTree.openFile?_of_slot? hone
  have hother := FileTree.openFile?_of_slot? htwo
  rw [hsame, haccess] at hother
  by_cases hclosed : one.files.access place = .read ∨
      one.files.node? place = none ∧ one.files.access place ≠ .full
  · rw [if_pos hclosed] at hopen hother
    exact of_closed hopen hother
  rw [if_neg hclosed] at hopen hother
  refine ⟨by simp [Body.start, hopen, hother], ?_, ?_⟩
  · by_cases hnode : one.files.node? place = none
    · refine ⟨{ filled := some (place, []) }, ?_, ?_, ?_⟩
      · simp [Worker.alter, Body.start, hopen, hnode, Effect.apply]
      · simp [Worker.alter, Body.start, hother, hnode, Effect.apply]
      · rintro target content hfilled
        exact (congrArg Prod.fst (Option.some.inj hfilled)).symm
    · exact Worker.actsAlike_of_idle (by simp [Worker.alter, Body.start, hopen, hnode])
        (by simp [Worker.alter, Body.start, hother, hnode])
  · rintro other files target hredirect hfile
    obtain rfl := Verb.redirect.inj hredirect
    rw [hopen] at hfile
    exact .inl (congrArg Prod.snd (Option.some.inj hfile)).symm

/-- Without a slot it opens a device, or nothing. -/
theorem of_no_slot (halike : FileTree.Alike spare one.files two.files)
    (hone : FileTree.Alike spare tree one.files) (hslot : one.files.slot? path = none) :
    StartsAlike allowed tree one two (.redirect path) := by
  rcases halike.openFile?_of_slot?_eq_none hslot with
    ⟨hopen, hother⟩ | ⟨place, hdevice, hopen, hother⟩
  · exact of_closed hopen hother
  · refine ⟨by simp [Body.start, hopen, hother], ?_, ?_⟩
    · exact Worker.actsAlike_of_idle (by simp [Worker.alter, Body.start, hopen])
        (by simp [Worker.alter, Body.start, hother])
    · rintro other files target hredirect hfile
      obtain rfl := Verb.redirect.inj hredirect
      rw [hopen] at hfile
      obtain rfl : place = target := congrArg Prod.snd (Option.some.inj hfile)
      exact .inr (hone.symm.device hdevice)

private theorem widen {verb : Verb} (h : StartsAlike allowed tree one two verb)
    {more : Place → Prop}
    (hmore : ∀ place, allowed place → more place) : StartsAlike more tree one two verb := by
  obtain ⟨effect, hone, htwo, hwithin⟩ := h.acts
  refine ⟨h.begins, ⟨effect, hone, htwo, fun target content hfilled =>
    hmore target (hwithin target content hfilled)⟩, fun path files place hverb hfile => ?_⟩
  exact (h.opened path files place hverb hfile).imp_left (hmore place)

end Verb.StartsAlike

/-- Each verb of a line that keeps to itself begins alike in two worlds in which the
same is in its slot. -/
theorem Task.KeepsTo.startsAlike {task : Task} {origin one two : World} {spare : Place → Prop}
    (h : task.KeepsTo origin spare) (hlinkless : origin.files.IsLinkless) {verb : Verb}
    (hverb : verb ∈ task.pipeline.verbs) (hone : FileTree.Alike spare origin.files one.files)
    (htwo : FileTree.Alike spare origin.files two.files)
    (hdirectory : one.directory = origin.directory ∧ two.directory = origin.directory)
    (hslot : ∀ place, task.slot? origin = some place →
      two.files.node? place = one.files.node? place) :
    verb.StartsAlike (task.slot? origin = some ·) origin.files one two := by
  cases verb with
  | cat path =>
      obtain ⟨place, content, hfound⟩ := CommandLine.found_of_cat hlinkless h.build hverb
      have hkept := h.reads path place content hverb hfound
      refine .of_idle ?_ rfl rfl fun _ hredirect => by cases hredirect
      simp only [Body.start, World.fileLines, hone.read? hkept hfound, htwo.read? hkept hfound]
  | ls =>
      refine .of_idle ?_ rfl rfl fun _ hredirect => by cases hredirect
      simp only [Body.start, World.listing, hdirectory.1, hdirectory.2, hone.list? (h.lists hverb),
        htwo.list? (h.lists hverb)]
  | pwd =>
      refine .of_idle ?_ rfl rfl fun _ hredirect => by cases hredirect
      simp only [Body.start, hdirectory.1, hdirectory.2]
  | cd change => exact absurd hverb (h.stays change)
  | redirect path =>
      have hpath := h.slot?_of_redirect hverb
      have hwrites : ∀ place, origin.files.slot? path = some place → spare place :=
        fun place hplace => h.writes place (hpath.trans hplace)
      have hone' := hone.slot? hwrites
      have htwo' := htwo.slot? hwrites
      rw [← hpath] at hone' htwo'
      cases hplace : task.slot? origin with
      | some place =>
          rw [hplace] at hone' htwo'
          have haccess := htwo.access.trans hone.access.symm
          refine (Verb.StartsAlike.of_slot hone' htwo' (hslot place hplace) haccess).widen ?_
          rintro _ rfl
          rfl
      | none => exact .of_no_slot (hone.symm.trans htwo) hone (hone'.trans hplace)
  | _ => exact .of_idle rfl rfl rfl fun _ hredirect => by cases hredirect

/-- A pipeline at work among others in a world, and its shadow: the same pipeline,
started alone, has come to the same point in a world that has the same in its
slot, and has not been changed elsewhere. -/
structure Shadowed (origin : World) (task : Task) (run : Run) (shadow : World) (files : FileTree) :
    Prop where
  follows : ∃ order : List Nat,
    (Run.start task.pipeline).follow (task.alone origin) (order.map .step) = some (run, shadow)
  alike : FileTree.Alike (task.slot? origin = some ·) origin.files shadow.files
  directory : shadow.directory = origin.directory
  slot : ∀ place, task.slot? origin = some place → files.node? place = shadow.files.node? place
  opened : ∀ worker ∈ run.workers, ∀ place, worker.opened? = some place →
    task.slot? origin = some place ∨ origin.files.node? place = some .device

/-- An effect on a slot. -/
def Effect.Within (effect : Effect) (allowed : Place → Prop) : Prop :=
  ∀ target content, effect.filled = some (target, content) → allowed target

namespace Effect

variable {effect : Effect} {allowed : Place → Prop} {world other : World} {tree : FileTree}

private theorem node?_apply (h : effect.Within allowed) (hroot : ¬ allowed []) (world : World)
    (place : Place) :
    (effect.apply world).files.node? place =
      match effect.filled with
      | some (target, content) =>
        if target = place then some (.file content) else world.files.node? place
      | none => world.files.node? place := by
  cases hfilled : effect.filled with
  | none => simp [apply, hfilled]
  | some fill =>
      have htarget : fill.1 ≠ [] := fun hnil => hroot (hnil ▸ h fill.1 fill.2 hfilled)
      simp [apply, hfilled, FileTree.node?_insert htarget]

theorem node?_apply_of_not_allowed (h : effect.Within allowed) (hroot : ¬ allowed [])
    {place : Place} (hplace : ¬ allowed place) :
    (effect.apply world).files.node? place = world.files.node? place := by
  rw [node?_apply h hroot]
  split
  · rename_i target content hfilled
    rw [if_neg]
    rintro rfl
    exact hplace (h target content hfilled)
  · rfl

theorem alike_apply (h : effect.Within allowed) (hroot : ¬ allowed [])
    (halike : FileTree.Alike allowed tree world.files) :
    FileTree.Alike allowed tree (effect.apply world).files := by
  refine ⟨?_, ?_, fun place hplace => ?_, halike.left, fun place hplace => ?_⟩
  · rw [← halike.start]
    simp only [apply]
    split <;> rfl
  · rw [← halike.access]
    simp only [apply]
    split <;> rfl
  · rw [node?_apply_of_not_allowed h hroot hplace, halike.same place hplace]
  · rw [FileTree.IsOpen, node?_apply h hroot]
    split
    · split
      · exact .inr ⟨_, rfl⟩
      · exact halike.right place hplace
    · exact halike.right place hplace

end Effect

namespace Shadowed

variable {origin world later shadow : World} {task : Task} {run next : Run} {position : Nat}
  {spare : Place → Prop}

/-- A worker that has not begun has one of the verbs of the line. -/
theorem verb_of_fresh {files : FileTree} (h : Shadowed origin task run shadow files)
    (hkeeps : task.KeepsTo origin spare) {verb : Verb}
    (hfresh : run.workers[position]? = some (.running (.fresh verb))) :
    verb ∈ task.pipeline.verbs := by
  obtain ⟨order, hfollow⟩ := h.follows
  have hfirst := Run.fresh_of_follow hfollow hfresh
  have hbegins : Begins (task.alone origin) task.pipeline.verbs (Run.start task.pipeline) :=
    CommandLine.begins_of_build hkeeps.build
  rw [hbegins.workers, List.getElem?_map] at hfirst
  obtain ⟨other, hother, hsame⟩ := Option.map_eq_some_iff.mp hfirst
  obtain rfl : other = verb := by simpa using hsame
  exact List.mem_of_getElem? hother

/-- What the pipeline has opened is its slot or a device. In both worlds the same is
there. -/
theorem node?_of_opened (h : Shadowed origin task run shadow world.files)
    (hworld : FileTree.Alike spare origin.files world.files) {worker : Worker}
    (hworker : worker ∈ run.workers) {place : Place} (hopened : worker.opened? = some place) :
    shadow.files.node? place = world.files.node? place ∧
      ∀ before, world.files.node? place = some (.file before) → task.slot? origin = some place := by
  rcases h.opened worker hworker place hopened with hslot | hdevice
  · exact ⟨(h.slot place hslot).symm, fun _ _ => hslot⟩
  · rw [hworld.device hdevice, h.alike.device hdevice]
    exact ⟨rfl, nofun⟩

/-- A step of the pipeline is one of its shadow as well, and does the same there. -/
theorem step (h : Shadowed origin task run shadow world.files) (hkeeps : task.KeepsTo origin spare)
    (hlinkless : origin.files.IsLinkless)
    (hworld : FileTree.Alike spare origin.files world.files)
    (hdirectory : world.directory = origin.directory)
    (hstep : run.stepAt position world = some (next, later)) :
    ∃ effect : Effect, later = effect.apply world ∧
      effect.Within (task.slot? origin = some ·) ∧
      Shadowed origin task next (effect.apply shadow) later.files := by
  obtain ⟨worker, moved, hworker, hworkers, ⟨wiring, rewired, hone⟩, helsewhere⟩ :=
    Run.stepAt_elsewhere hstep
  have hmem : worker ∈ run.workers := List.mem_of_getElem? hworker
  have hroot : ¬ task.slot? origin = some [] := by
    intro hslot
    exact (Pipeline.isOpen_of_slot? hslot).1 rfl
  have hshadow : FileTree.Alike spare origin.files shadow.files :=
    h.alike.widen hkeeps.writes hworld.left
  have hsame : ∀ place, task.slot? origin = some place →
      shadow.files.node? place = world.files.node? place :=
    fun place hplace => (h.slot place hplace).symm
  have hfresh : ∀ verb, worker = .running (.fresh verb) →
      verb.StartsAlike (task.slot? origin = some ·) origin.files world shadow :=
    fun verb hverb => hkeeps.startsAlike hlinkless (h.verb_of_fresh hkeeps (hverb ▸ hworker))
      hworld hshadow ⟨hdirectory, h.directory⟩ hsame
  have halike : worker.BeginsAlike world shadow := fun verb hverb => (hfresh verb hverb).begins
  have hacts : worker.ActsAlike (task.slot? origin = some ·) world shadow := by
    by_cases hbegun : ∃ verb, worker = .running (.fresh verb)
    · obtain ⟨verb, rfl⟩ := hbegun
      exact (hfresh verb rfl).acts
    · exact Worker.actsAlike_of_begun (fun verb hverb => hbegun ⟨verb, hverb⟩)
        fun place hopened => h.node?_of_opened hworld hmem hopened
  obtain ⟨effect, hhere, hthere, hwithin⟩ := hacts
  have hlater : later = effect.apply world := (Worker.alter_of_step hone).trans hhere
  refine ⟨effect, hlater, hwithin, ?_, Effect.alike_apply hwithin hroot h.alike, h.directory,
    ?_, ?_⟩
  · obtain ⟨order, hfollow⟩ := h.follows
    refine ⟨order ++ [position], ?_⟩
    rw [List.map_append, List.map_singleton, Run.follow_concat hfollow, ← hthere]
    exact helsewhere shadow halike
  · intro place hplace
    rw [hlater, Effect.node?_apply hwithin hroot, Effect.node?_apply hwithin hroot,
      h.slot place hplace]
  · intro other hother place hopened
    rw [hworkers] at hother
    rcases List.mem_or_eq_of_mem_set hother with hold | rfl
    · exact h.opened other hold place hopened
    · rcases Worker.opened?_of_step hone hopened with hbefore | ⟨path, files, rfl, hfile⟩
      · exact h.opened worker hmem place hbefore
      · exact (hfresh _ rfl).opened path files place rfl hfile

/-- Others that leave the slot alone do not part a pipeline from its shadow. -/
theorem frame {files others : FileTree} (h : Shadowed origin task run shadow files)
    (hsame : ∀ place, task.slot? origin = some place → others.node? place = files.node? place) :
    Shadowed origin task run shadow others :=
  { h with slot := fun place hplace => (hsame place hplace).trans (h.slot place hplace) }

/-- Before its first step a pipeline has its shadow in the world in which it is started
alone. -/
theorem start (hkeeps : task.KeepsTo origin spare) (hlinkless : origin.files.IsLinkless)
    {files : FileTree}
    (hfiles : ∀ place, task.slot? origin = some place →
      files.node? place = (task.alone origin).files.node? place) :
    Shadowed origin task (Run.start task.pipeline) (task.alone origin) files := by
  obtain ⟨hstart, haccess, hnodes⟩ := CommandLine.node?_of_build hlinkless hkeeps.build
  refine ⟨⟨[], rfl⟩, ⟨hstart, haccess, ?_, ?_, ?_⟩, rfl, hfiles, ?_⟩
  · exact fun place hplace => (hnodes place).trans (if_neg fun hboth => hplace hboth.1)
  · exact fun place hplace => (Pipeline.isOpen_of_slot? hplace).2
  · intro place hplace
    rw [FileTree.IsOpen, hnodes]
    split
    · exact .inl rfl
    · exact (Pipeline.isOpen_of_slot? hplace).2
  · have hbegins : Begins (task.alone origin) task.pipeline.verbs (Run.start task.pipeline) :=
      CommandLine.begins_of_build hkeeps.build
    intro worker hworker
    rw [hbegins.workers] at hworker
    obtain ⟨verb, -, rfl⟩ := List.mem_map.mp hworker
    intro place hopened
    cases hopened

/-- A line that keeps to itself does not race with its own redirect. -/
theorem not_races (hkeeps : task.KeepsTo origin spare) (hlinkless : origin.files.IsLinkless) :
    ¬ Races (task.alone origin) task.pipeline.verbs := by
  rintro ⟨path, place, hfirst, hlast, hvacant, -, hlisted⟩
  have hshadow : Shadowed origin task (Run.start task.pipeline) (task.alone origin)
      (task.alone origin).files :=
    start hkeeps hlinkless fun _ _ => rfl
  have hpath : task.slot? origin = origin.files.slot? path :=
    task.pipeline.slot?_of_redirect hlast origin.files
  have hslot : (task.alone origin).files.slot? path = some place := by
    simp [FileTree.slot?, hvacant]
  rw [hshadow.alike.slot? fun place hplace => hpath.trans hplace, ← hpath] at hslot
  exact hkeeps.lists (List.mem_of_head? hfirst) place (hkeeps.writes place hslot)
    (hshadow.alike.symm.found (fun _ hfile => by cases hfile) hlisted)

/-- A pipeline that cannot go on has left what it leaves when it is alone. -/
theorem ended {files : FileTree} (h : Shadowed origin task run shadow files)
    (hkeeps : task.KeepsTo origin spare) (hlinkless : origin.files.IsLinkless)
    (hrest : ∀ position, run.stepAt position world = none) :
    run.result = ((Run.start task.pipeline).settle (task.alone origin)).1.result ∧
      run.result.ok = true ∧
      shadow = ((Run.start task.pipeline).settle (task.alone origin)).2 := by
  obtain ⟨order, hfollow⟩ := h.follows
  have hbegins : Begins (task.alone origin) task.pipeline.verbs (Run.start task.pipeline) :=
    CommandLine.begins_of_build hkeeps.build
  have hstuck : ∀ position, run.stepAt position shadow = none := fun position =>
    (Run.stepAt_eq_none_iff world shadow).mp (hrest position)
  have hquiet := not_races hkeeps hlinkless
  obtain ⟨-, hresult, hworld⟩ := hbegins.outcome hquiet hfollow hstuck
  obtain ⟨hsettled, hlater⟩ := hbegins.settle hquiet
  exact ⟨hresult.trans hsettled.symm, by simp [RunResult.ok, hresult], hworld.trans hlater.symm⟩

end Shadowed

end LineShell
