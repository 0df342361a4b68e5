import LineShell.Proofs.AlikeTrees
import LineShell.Proofs.Rows

/-!
The one file that a line writes to. A redirect's path leads to a file or to the place
of a new one, or the redirect changes no file. Where there are no links, making the
line and running it changes nothing but what is at that place, and nothing there that is
not allowed; so in a tree that is alike but for files that others write to, the line is
made into the same and finds the same.
-/

namespace LineShell

namespace FileTree

/-- The place of the file that is written to at the end of a path: of the one that is
there, or of the one that would be made. -/
def slot? (tree : FileTree) (path : Text) : Option Place :=
  match tree.locate true path with
  | .found place (.file _) => some place
  | .vacant place => some place
  | _ => none

def IsLinkless (tree : FileTree) : Prop :=
  ∀ place text, tree.node? place ≠ some (.link text)

variable {spare : Place → Prop} {tree other : FileTree} {path : Text} {place : Place}

private theorem slot?_of_atEnd (hopen : tree.IsOpen place)
    (hend : tree.locate true path = tree.atEnd place) : tree.slot? path = some place := by
  rcases hopen with hnode | ⟨content, hnode⟩ <;> simp [slot?, hend, atEnd, hnode]

theorem atEnd_of_slot? (h : tree.slot? path = some place) :
    place ≠ [] ∧ tree.IsOpen place ∧ tree.locate true path = tree.atEnd place := by
  unfold slot? at h
  split at h
  · rename_i target content hfound
    obtain rfl : target = place := Option.some.inj h
    obtain ⟨hroot, hnode⟩ := node?_of_found hfound nofun
    exact ⟨hroot, .inr ⟨content, hnode⟩, by rw [hfound, atEnd, hnode]⟩
  · rename_i target hvacant
    obtain rfl : target = place := Option.some.inj h
    obtain ⟨hroot, hnode⟩ := node?_of_vacant hvacant
    exact ⟨hroot, .inl hnode, by rw [hvacant, atEnd, hnode]⟩
  · cases h

/-- A path has the same slot in both trees, if that is a spare place. -/
theorem Alike.slot? (h : Alike spare tree other)
    (hspare : ∀ place, tree.slot? path = some place → spare place) :
    other.slot? path = tree.slot? path := by
  cases hslot : tree.slot? path with
  | some place =>
      obtain ⟨-, -, hend⟩ := atEnd_of_slot? hslot
      have hplace := hspare place hslot
      exact slot?_of_atEnd (h.right place hplace) (h.atEnd hplace hend)
  | none =>
      rw [Option.eq_none_iff_forall_ne_some]
      intro place hother
      obtain ⟨-, hopen, hend⟩ := atEnd_of_slot? hother
      cases h.locate true path with
      | same hequal =>
          have hsame : tree.slot? path = other.slot? path := by
            simp only [FileTree.slot?, hequal]
          rw [hslot, hother] at hsame
          cases hsame
      | @spare target htarget hleft _ =>
          rw [slot?_of_atEnd (h.left target htarget) hleft] at hslot
          cases hslot
      | lost _ hright => exact not_isLost_atEnd (hend ▸ hright)

/-- A path with a slot opens the file there, and makes it if it is missing, as far as that
is allowed. -/
theorem openFile?_of_slot? (h : tree.slot? path = some place) :
    tree.openFile? path =
      if tree.access place = .read ∨ tree.node? place = none ∧ tree.access place ≠ .full then none
      else some
        (if tree.node? place = none then tree.insert place (.file []) else tree, place) := by
  obtain ⟨-, hopen, hend⟩ := atEnd_of_slot? h
  rcases hopen with hnode | ⟨content, hnode⟩
  · by_cases hfull : tree.access place = .full <;> simp [openFile?, hend, atEnd, hnode, hfull]
  · simp [openFile?, hend, atEnd, hnode]

/-- A path without a slot opens a device or nothing, and the same in both trees. -/
theorem Alike.openFile?_of_slot?_eq_none (h : Alike spare tree other)
    (hslot : tree.slot? path = none) :
    (tree.openFile? path = none ∧ other.openFile? path = none) ∨
    ∃ place, tree.node? place = some .device ∧ tree.openFile? path = some (tree, place) ∧
      other.openFile? path = some (other, place) := by
  have hother : other.slot? path = none := by
    rw [h.slot? (fun place hplace => nomatch hslot.symm.trans hplace), hslot]
  by_cases hdevice : ∃ place, tree.locate true path = .found place .device
  · obtain ⟨place, hfound⟩ := hdevice
    have hsame := h.found (by nofun) hfound
    right
    exact ⟨place, (node?_of_found hfound nofun).2, by simp [openFile?, hfound],
      by simp [openFile?, hsame]⟩
  · left
    have hnone {some : FileTree} (hslot : some.slot? path = none)
        (hdevice : ∀ place, some.locate true path ≠ .found place .device) :
        some.openFile? path = none := by
      unfold FileTree.slot? at hslot
      unfold openFile?
      split
      · rename_i hfound
        simp [hfound] at hslot
      · rename_i hfound
        exact absurd hfound (hdevice _)
      · rename_i hvacant
        simp [hvacant] at hslot
      · rfl
    exact ⟨hnone hslot fun place hfound => hdevice ⟨place, hfound⟩, hnone hother fun place hfound =>
      hdevice ⟨place, h.symm.found (by nofun) hfound⟩⟩

/-- What is read at the end of a path shows only what is in its slot. -/
theorem Alike.read?_of_slot? (h : Alike spare tree other)
    (hsame : ∀ place, tree.slot? path = some place → other.node? place = tree.node? place) :
    other.read? path = tree.read? path := by
  cases h.locate true path with
  | same hequal => simp only [FileTree.read?, hequal]
  | @spare place hspare hleft hright =>
      have hnode := hsame place (slot?_of_atEnd (h.left place hspare) hleft)
      simp only [FileTree.read?, hleft, hright, FileTree.atEnd, hnode]
  | lost hleft hright =>
      have hnothing {some : FileTree} (hlost : (some.locate true path).IsLost) :
          some.read? path = none := by
        rcases hlost with hnowhere | hnowhere <;> simp [FileTree.read?, hnowhere]
      rw [hnothing hleft, hnothing hright]

private theorem IsLinkless.alike (hlinkless : tree.IsLinkless) (h : Alike spare tree other) :
    other.IsLinkless := by
  intro place text hnode
  by_cases hspare : spare place
  · rcases h.right place hspare with hnone | ⟨content, hfile⟩
    · rw [hnone] at hnode
      cases hnode
    · rw [hfile] at hnode
      cases hnode
  · exact hlinkless place text ((h.same place hspare).symm.trans hnode)

/-- Making a redirect empties its slot, if that is allowed, and leaves everything else as
it is. -/
theorem node?_clearFor (hlinkless : tree.IsLinkless) (path : Text) (place : Place) :
    (CommandLine.clearFor tree (.redirect path)).node? place =
      if tree.slot? path = some place ∧ tree.access place = .full then none
      else tree.node? place := by
  by_cases hfile : tree.isFile path = true
  · obtain ⟨target, content, hfound⟩ := exists_of_isFile hfile
    have hnamed : tree.locate false path = .found target (.file content) := by
      rcases tree.locate_followed path with ⟨last, text, hlink⟩ | hsame
      · exact absurd (node?_of_found hlink nofun).2 (hlinkless last text)
      · exact hsame.symm.trans hfound
    have hslot : tree.slot? path = some target := by simp [slot?, hfound]
    rw [clearFor_of_named hnamed, hslot]
    by_cases hfull : tree.access target = .full
    · rw [if_pos hfull, node?_erase (node?_of_found hfound nofun).1]
      by_cases hsame : target = place
      · subst hsame
        simp [hfull]
      · simp [hsame]
    · rw [if_neg hfull, if_neg]
      rintro ⟨hsame, hother⟩
      exact hfull (Option.some.inj hsame ▸ hother)
  · have hclear : CommandLine.clearFor tree (.redirect path) = tree := by
      simp [CommandLine.clearFor, hfile]
    rw [hclear]
    split
    · rename_i hslot
      obtain ⟨-, hopen, hend⟩ := atEnd_of_slot? hslot.1
      rcases hopen with hnode | ⟨content, hnode⟩
      · exact hnode
      · rw [atEnd, hnode] at hend
        simp [isFile, hend] at hfile
    · rfl

/-- Making a verb changes nothing about a tree but its nodes. -/
theorem start_access_clearFor (tree : FileTree) (verb : Verb) :
    (CommandLine.clearFor tree verb).start = tree.start ∧
      (CommandLine.clearFor tree verb).access = tree.access := by
  cases verb with
  | redirect path =>
      simp only [CommandLine.clearFor, remove]
      split
      · split
        · exact ⟨rfl, rfl⟩
        · split <;> exact ⟨rfl, rfl⟩
        · exact ⟨rfl, rfl⟩
      · exact ⟨rfl, rfl⟩
  | _ => exact ⟨rfl, rfl⟩

/-- A tree stays alike when a redirect to a spare place has been made in it. -/
theorem Alike.clearFor (h : Alike spare tree other) (hlinkless : tree.IsLinkless) {verb : Verb}
    (hspare : ∀ path place, verb = .redirect path → tree.slot? path = some place → spare place) :
    Alike spare tree (CommandLine.clearFor other verb) := by
  obtain ⟨hstart, haccess⟩ := start_access_clearFor other verb
  refine ⟨hstart.trans h.start, haccess.trans h.access, ?_, h.left, ?_⟩
  · intro place hplace
    cases verb with
    | redirect path =>
        rw [node?_clearFor (hlinkless.alike h), h.slot? fun place => hspare path place rfl,
          if_neg fun hslot => hplace (hspare path place rfl hslot.1), h.same place hplace]
    | _ => exact h.same place hplace
  · intro place hplace
    cases verb with
    | redirect path =>
        rw [IsOpen, node?_clearFor (hlinkless.alike h)]
        split
        · exact .inl rfl
        · exact h.right place hplace
    | _ => exact h.right place hplace

end FileTree

/-- The place of the file that a pipeline writes to, if it is one that ends in a
redirect. -/
def Pipeline.slot? (tree : FileTree) (pipeline : Pipeline) : Option Place :=
  match pipeline.verbs.getLast? with
  | some (.redirect path) => tree.slot? path
  | _ => none

theorem Pipeline.slot?_of_redirect {pipeline : Pipeline} {path : Text}
    (h : pipeline.verbs.getLast? = some (.redirect path)) (tree : FileTree) :
    pipeline.slot? tree = tree.slot? path := by
  rw [slot?, h]

theorem Pipeline.isOpen_of_slot? {pipeline : Pipeline} {tree : FileTree} {place : Place}
    (h : pipeline.slot? tree = some place) : place ≠ [] ∧ tree.IsOpen place := by
  unfold slot? at h
  split at h
  · obtain ⟨hroot, hopen, -⟩ := FileTree.atEnd_of_slot? h
    exact ⟨hroot, hopen⟩
  · cases h

/-- A redirect is the last verb of a row. -/
theorem Row.getLast?_of_redirect {tree : FileTree} {verbs : List Verb} (h : Row tree verbs)
    {path : Text} (hredirect : .redirect path ∈ verbs) :
    verbs.getLast? = some (.redirect path) := by
  cases h with
  | solitary halone =>
      obtain rfl := List.mem_singleton.mp hredirect
      cases halone
  | line hline =>
      rcases List.mem_append.mp hredirect with hfront | hsink
      · rcases List.mem_cons.mp hfront with rfl | hfilter
        · cases hline.reads
        · cases hline.passes _ hfilter
      · rw [List.getLast?_concat, List.mem_singleton.mp hsink]

/-- The file that a row reads is there. -/
theorem Row.there {tree : FileTree} {verbs : List Verb} (h : Row tree verbs) {path : Text}
    (hcat : .cat path ∈ verbs) : tree.isFile path = true := by
  cases h with
  | solitary halone =>
      obtain rfl := List.mem_singleton.mp hcat
      cases halone
  | line hline =>
      rcases List.mem_cons.mp hcat with rfl | hrest
      · exact hline.there path rfl
      · cases hline.acceptsInput _ hrest

namespace CommandLine

variable {directory line : Text} {tree other cleared : FileTree} {stages : List Stage}
  {pipeline : Pipeline}

/-- Making a line does to the tree what making its last verb does. -/
theorem cleared_of_accepted (h : Accepted directory tree line cleared stages) :
    ∃ last, (stages.map Stage.verb).getLast? = some last ∧ cleared = clearFor tree last := by
  cases h with
  | @solitary segment verb _ _ _ hcommand =>
      refine ⟨verb, rfl, ?_⟩
      have halone := ((Verb.isSolitary_iff verb).mp hcommand.isSolitary).1
      rw [clearFor_of_not_sink (by simp [Verb.isSink, halone])]
  | @row user _ last first rest source filters hending =>
      refine ⟨last.2, ?_, ?_⟩
      · rw [Stage.map_verb_rowFrom, List.map_append, List.map_singleton, List.getLast?_concat]
      · exact hending.made.2.1.symm

private theorem Ending.elsewhere {user : Text} {last : Text × Verb}
    (h : Ending directory tree line user cleared last) (other : FileTree) :
    Ending directory other line user (clearFor other last.2) last := by
  cases h with
  | print hnone => exact .print hnone
  | redirect hfound hspaced hfree hgiven => exact .redirect hfound hspaced hfree hgiven

/-- In a tree where its files are still there, a line that changes no directory is
accepted just the same. -/
theorem accepted_elsewhere (h : Accepted directory tree line cleared stages)
    (hcd : ∀ change, .cd change ∉ stages.map Stage.verb) {last : Verb}
    (hlast : (stages.map Stage.verb).getLast? = some last)
    (hcat : ∀ path, .cat path ∈ stages.map Stage.verb → (clearFor other last).isFile path = true) :
    Accepted directory other line (clearFor other last) stages := by
  cases h with
  | @solitary segment verb hnone hsegmented hplain hcommand =>
      obtain rfl : verb = last := by simpa [Stage.rowFrom] using hlast
      generalize htext : Text.trim segment = command at hcommand hcd ⊢
      cases hcommand with
      | exit => exact htext ▸ .solitary hnone hsegmented hplain (htext ▸ .exit)
      | _ => exact absurd List.mem_cons_self (hcd _)
  | @row user _ ending first rest source filters hending hsegmented hplain hsource hfilters =>
      rw [Stage.map_verb_rowFrom, List.map_append, List.map_singleton] at hlast hcat
      obtain rfl : ending.2 = last := Option.some.inj (List.getLast?_concat.symm.trans hlast)
      refine .row (hending.elsewhere other) hsegmented hplain ?_ hfilters
      generalize Text.trim first = command at hsource ⊢
      cases hsource with
      | ls => exact .ls
      | pwd => exact .pwd
      | cat hfile => exact .cat (hcat _ List.mem_cons_self)

/-- What making a line leaves of the file tree. -/
theorem node?_of_build (hlinkless : tree.IsLinkless)
    (h : build directory tree line = (cleared, .ok pipeline)) :
    cleared.start = tree.start ∧ cleared.access = tree.access ∧ ∀ place, cleared.node? place =
      if pipeline.slot? tree = some place ∧ tree.access place = .full then none
      else tree.node? place := by
  obtain ⟨last, hlast, rfl⟩ := cleared_of_accepted (accepted_of_build h).1
  obtain ⟨hstart, haccess⟩ := FileTree.start_access_clearFor tree last
  refine ⟨hstart, haccess, fun place => ?_⟩
  have hverbs : pipeline.verbs.getLast? = some last := hlast
  rw [Pipeline.slot?, hverbs]
  cases last with
  | redirect path => exact FileTree.node?_clearFor hlinkless path place
  | _ => simp [FileTree.node?, clearFor]

/-- A file that a line reads is there before the line is made, too. -/
theorem found_of_cat (hlinkless : tree.IsLinkless)
    (h : build directory tree line = (cleared, .ok pipeline)) {path : Text}
    (hcat : .cat path ∈ pipeline.verbs) :
    ∃ place content, tree.locate true path = .found place (.file content) := by
  have hfile : cleared.isFile path = true := (row_of_build h).1.there hcat
  obtain ⟨hstart, -, hnodes⟩ := node?_of_build hlinkless h
  have hwithin : FileTree.Within none cleared tree := by
    refine ⟨hstart.symm, fun place node hnode => .inl ?_⟩
    rw [hnodes] at hnode
    split at hnode
    · cases hnode
    · exact hnode
  obtain ⟨place, content, hfound⟩ := FileTree.exists_of_isFile hfile
  exact ⟨place, content, FileTree.found_locate_of_within hwithin (fun _ _ => nofun) hfound⟩

/-- In a tree that is alike but for files that the line does not read, it is made into
the same pipeline. -/
theorem build_of_alike {spare : Place → Prop} (halike : FileTree.Alike spare tree other)
    (hlinkless : tree.IsLinkless) (h : build directory tree line = (cleared, .ok pipeline))
    (hcd : ∀ change, .cd change ∉ pipeline.verbs)
    (hcat : ∀ path place content, .cat path ∈ pipeline.verbs →
      tree.locate true path = .found place (.file content) → ¬ spare place)
    (hslot : ∀ place, pipeline.slot? tree = some place → spare place) :
    ∃ emptied, build directory other line = (emptied, .ok pipeline) ∧
      FileTree.Alike spare tree emptied ∧ ∀ place, emptied.node? place =
        if pipeline.slot? tree = some place ∧ tree.access place = .full then none
        else other.node? place := by
  obtain ⟨haccepted, hcommand⟩ := accepted_of_build h
  obtain ⟨last, hlast, rfl⟩ := cleared_of_accepted haccepted
  have hverbs : pipeline.verbs.getLast? = some last := hlast
  have hspare : ∀ path place, last = .redirect path → tree.slot? path = some place →
      spare place := by
    rintro path place rfl hplace
    exact hslot place ((pipeline.slot?_of_redirect hverbs tree).trans hplace)
  have hemptied := halike.clearFor hlinkless hspare
  refine ⟨clearFor other last, ?_, hemptied, fun place => ?_⟩
  · refine (build_eq_ok_iff ..).mpr ⟨accepted_elsewhere haccepted hcd hlast ?_, hcommand⟩
    intro path hpath
    obtain ⟨place, content, hfound⟩ := found_of_cat hlinkless h hpath
    have hthere := hemptied.found (fun _ _ => hcat path place content hpath hfound) hfound
    simp [FileTree.isFile, hthere]
  · rw [Pipeline.slot?, hverbs]
    cases last with
    | redirect path =>
        rw [FileTree.node?_clearFor (hlinkless.alike halike),
          halike.slot? fun place => hspare path place rfl, halike.access]
    | _ => simp [clearFor]

end CommandLine

end LineShell
