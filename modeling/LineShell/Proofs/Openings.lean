import LineShell.CommandLine
import LineShell.Proofs.DirectoryNames

/-!
What making a pipeline and running it can do to a file tree. A redirect's file
is removed when the line is made, so that its path leads to no regular file any
more, unless it cannot be removed; when the redirect opens it a new one appears where
nothing was, and it grows at its end. Whatever another path led to it still leads to.
-/

namespace LineShell.FileTree

theorem node?_insert {place : Place} (hplace : place ≠ []) (tree : FileTree) (node : Node)
    (other : Place) :
    (tree.insert place node).node? other =
      if place = other then some node else tree.node? other := by
  by_cases hroot : other = []
  · have hne : place ≠ other := fun h => hplace (h.trans hroot)
    simp [node?, hroot, hplace]
  · simp only [node?, insert, hroot, if_false, Std.ExtTreeMap.getElem?_insert,
      Std.LawfulEqCmp.compare_eq_iff_eq]

theorem node?_erase {place : Place} (hplace : place ≠ []) (tree : FileTree) (other : Place) :
    (tree.erase place).node? other = if place = other then none else tree.node? other := by
  by_cases hroot : other = []
  · simp [node?, hroot, hplace]
  · simp only [node?, erase, hroot, if_false, Std.ExtTreeMap.getElem?_erase,
      Std.LawfulEqCmp.compare_eq_iff_eq]

private theorem insert_insert (tree : FileTree) (place : Place) (first second : Node) :
    (tree.insert place first).insert place second = tree.insert place second := by
  have hnodes : ((tree.nodes.insert place first).insert place second) =
      tree.nodes.insert place second := by
    ext other
    simp only [Std.ExtTreeMap.getElem?_insert]
    split <;> rfl
  simp [insert, hnodes]

theorem insert_eq_self {tree : FileTree} {place : Place} {node : Node} (hplace : place ≠ [])
    (h : tree.node? place = some node) : tree.insert place node = tree := by
  have hnodes : tree.nodes.insert place node = tree.nodes := by
    refine Std.ExtTreeMap.ext_getElem? fun other => ?_
    rw [Std.ExtTreeMap.getElem?_insert]
    split
    · rename_i hsame
      obtain rfl := Std.LawfulEqCmp.compare_eq_iff_eq.mp hsame
      simpa [node?, hplace] using h.symm
    · rfl
  simp [insert, hnodes]

/-! Walks. What a walk finds depends only on the nodes on its way, so it finds the
same in a tree that has more of them. -/

/-- A destination is what the tree has at its place. -/
def Destination.Shown (tree : FileTree) : Destination → Prop
  | .found place node => node = .directory ∨ place ≠ [] ∧ tree.node? place = some node
  | .vacant place => place ≠ [] ∧ tree.node? place = none
  | .missing | .nowhere => True

private theorem shown_walkNames {tree : FileTree} {follow : Bool}
    {chase : Place → List Text → Destination}
    (hchase : ∀ place steps, (chase place steps).Shown tree) (place : Place)
    (steps : List Text) : (walkNames tree follow chase place steps).Shown tree := by
  induction steps generalizing place with
  | nil => exact .inl rfl
  | cons name rest ih =>
      have hplace : place ++ [name] ≠ [] := by simp
      rw [walkNames]
      split
      · exact ih place
      split
      · exact ih place.dropLast
      split
      · trivial
      split
      · rename_i hnode
        split
        · exact ⟨hplace, hnode⟩
        · trivial
      · exact ih (place ++ [name])
      · rename_i content hnode
        split
        · exact .inr ⟨hplace, hnode⟩
        · trivial
      · rename_i hnode
        split
        · exact .inr ⟨hplace, hnode⟩
        · trivial
      · rename_i target hnode
        split
        · exact .inr ⟨hplace, hnode⟩
        · exact hchase _ _

theorem shown_locate (tree : FileTree) (follow : Bool) (path : Text) :
    (tree.locate follow path).Shown tree := by
  have hwalk : ∀ hops place steps, (walk tree follow hops place steps).Shown tree := by
    intro hops
    induction hops with
    | zero => exact shown_walkNames fun _ _ => trivial
    | succ hops ih => exact shown_walkNames ih
  simp only [locate]
  generalize (if Path.isAbsolute path then [] else tree.start) = place
  split
  · trivial
  split
  · trivial
  split
  · exact hwalk _ _ _
  · trivial

/-- The second tree has every node of the first one, a file at a spare place
apart. -/
def Within (spare : Option Place) (small large : FileTree) : Prop :=
  large.start = small.start ∧ ∀ place node, small.node? place = some node →
    large.node? place = some node ∨ spare = some place ∧ ∃ content, node = .file content

variable {spare : Option Place} {small large : FileTree} {target : Place} {node : Node}

private theorem found_walkNames_of_within (h : Within spare small large)
    (hspare : ∀ content, node = .file content → spare ≠ some target) {follow : Bool}
    {chase further : Place → List Text → Destination}
    (hchase : ∀ place steps, chase place steps = .found target node →
      further place steps = .found target node)
    {place : Place} {steps : List Text}
    (hfound : walkNames small follow chase place steps = .found target node) :
    walkNames large follow further place steps = .found target node := by
  induction steps generalizing place with
  | nil => exact hfound
  | cons name rest ih =>
      rw [walkNames] at hfound ⊢
      split at hfound
      · rename_i hhere
        rw [if_pos hhere]
        exact ih hfound
      rename_i hhere
      rw [if_neg hhere]
      split at hfound
      · rename_i habove
        rw [if_pos habove]
        exact ih hfound
      rename_i habove
      rw [if_neg habove]
      split at hfound
      · cases hfound
      rename_i hshort
      rw [if_neg hshort]
      cases hnode : small.node? (place ++ [name]) with
      | none =>
          simp only [hnode] at hfound
          split at hfound <;> cases hfound
      | some found =>
          simp only [hnode] at hfound
          rcases h.2 _ _ hnode with hsame | ⟨hplace, content, rfl⟩
          · rw [hsame]
            cases found with
            | directory => exact ih hfound
            | file content => exact hfound
            | device => exact hfound
            | link text =>
                by_cases hlast : rest = [] ∧ follow = false
                · simp only [if_pos hlast] at hfound ⊢
                  exact hfound
                · simp only [if_neg hlast] at hfound ⊢
                  exact hchase _ _ hfound
          · change (if rest = [] then .found (place ++ [name]) (.file content) else .nowhere) =
              Destination.found target node at hfound
            split at hfound
            · simp only [Destination.found.injEq] at hfound
              obtain ⟨rfl, rfl⟩ := hfound
              exact absurd hplace (hspare content rfl)
            · cases hfound

/-- A path that leads to something, but for a file at the spare place, leads to the
same in the larger tree. -/
theorem found_locate_of_within (h : Within spare small large)
    (hspare : ∀ content, node = .file content → spare ≠ some target) {follow : Bool}
    {path : Text} (hfound : small.locate follow path = .found target node) :
    large.locate follow path = .found target node := by
  have hwalk : ∀ hops place steps, walk small follow hops place steps = .found target node →
      walk large follow hops place steps = .found target node := by
    intro hops
    induction hops with
    | zero =>
        intro place steps hfound
        rw [walk] at hfound ⊢
        exact found_walkNames_of_within h hspare (fun _ _ hnowhere => hnowhere) hfound
    | succ hops ih =>
        intro place steps hfound
        rw [walk] at hfound ⊢
        exact found_walkNames_of_within h hspare ih hfound
  simp only [locate, h.1] at hfound ⊢
  generalize (if Path.isAbsolute path then [] else small.start) = place at hfound ⊢
  split at hfound
  · cases hfound
  rename_i hpath
  rw [if_neg hpath]
  split at hfound
  · cases hfound
  rename_i hgood
  rw [if_neg hgood]
  split at hfound
  · rename_i hplace
    rcases h.2 _ _ hplace with hsame | ⟨-, content, hfile⟩
    · rw [hsame]
      exact hwalk _ _ _ hfound
    · cases hfile
  · cases hfound

/-- A path leads to the same whether a link as its last name is followed or not, unless
its last name is that of a link. -/
theorem locate_followed (tree : FileTree) (path : Text) :
    (∃ place text, tree.locate false path = .found place (.link text)) ∨
      tree.locate true path = tree.locate false path := by
  have hnames : ∀ {chase further : Place → List Text → Destination},
      (∀ place steps, (∃ place' text, further place steps = .found place' (.link text)) ∨
        chase place steps = further place steps) →
      ∀ place steps,
        (∃ place' text, walkNames tree false further place steps = .found place' (.link text)) ∨
          walkNames tree true chase place steps = walkNames tree false further place steps := by
    intro chase further hchase place steps
    induction steps generalizing place with
    | nil => exact .inr rfl
    | cons name rest ih =>
        rw [walkNames, walkNames]
        split
        · exact ih place
        split
        · exact ih place.dropLast
        split
        · exact .inr rfl
        cases tree.node? (place ++ [name]) with
        | none => exact .inr rfl
        | some node =>
            cases node with
            | directory => exact ih (place ++ [name])
            | file bytes => exact .inr rfl
            | device => exact .inr rfl
            | link text =>
                by_cases hlast : rest = []
                · exact .inl ⟨_, text, if_pos ⟨hlast, rfl⟩⟩
                · simpa only [hlast, false_and, if_false] using hchase _ _
  have hwalk : ∀ hops place steps,
      (∃ place' text, walk tree false hops place steps = .found place' (.link text)) ∨
        walk tree true hops place steps = walk tree false hops place steps := by
    intro hops
    induction hops with
    | zero => exact hnames fun _ _ => .inr rfl
    | succ hops ih => exact hnames ih
  simp only [locate]
  generalize (if Path.isAbsolute path then [] else tree.start) = place
  split
  · exact .inr rfl
  split
  · exact .inr rfl
  split
  · exact hwalk _ _ _
  · exact .inr rfl

/-- Where a path leads to a file, its last name is at least that of a link. -/
theorem found_locate_unfollowed {tree : FileTree} {path : Text} {content : Bytes}
    (hfound : tree.locate true path = .found target (.file content)) :
    ∃ place node, tree.locate false path = .found place node ∧ node ≠ .directory := by
  rcases tree.locate_followed path with ⟨place, text, hlink⟩ | hsame
  · exact ⟨place, _, hlink, nofun⟩
  · exact ⟨target, .file content, hsame.symm.trans hfound, nofun⟩

/-! What is left of a redirect's file. -/

theorem node?_of_found {tree : FileTree} {follow : Bool} {path : Text}
    (h : tree.locate follow path = .found target node) (hother : node ≠ .directory) :
    target ≠ [] ∧ tree.node? target = some node := by
  have hshown := shown_locate tree follow path
  rw [h] at hshown
  exact hshown.resolve_left hother

theorem node?_of_vacant {tree : FileTree} {follow : Bool} {path : Text}
    (h : tree.locate follow path = .vacant target) :
    target ≠ [] ∧ tree.node? target = none := by
  have hshown := shown_locate tree follow path
  rw [h] at hshown
  exact hshown

private theorem within_erase {tree : FileTree} (htarget : target ≠ []) :
    Within none (tree.erase target) tree := by
  refine ⟨rfl, fun place node hnode => .inl ?_⟩
  rw [node?_erase htarget] at hnode
  split at hnode
  · cases hnode
  · exact hnode

/-- The entry that a path names is there and cannot be removed. -/
def IsKept (tree : FileTree) (path : Text) : Prop :=
  ∃ place node, tree.locate false path = .found place node ∧ tree.access place ≠ .full

theorem exists_of_isFile {tree : FileTree} {path : Text} (h : tree.isFile path = true) :
    ∃ place content, tree.locate true path = .found place (.file content) := by
  unfold isFile at h
  split at h
  · rename_i place content hfound
    exact ⟨place, content, hfound⟩
  · cases h

/-- Where a path leads to a file, its removal takes out the entry that it names, if that
is allowed. -/
theorem remove_of_isFile {tree : FileTree} {path : Text} (h : tree.isFile path = true) :
    ∃ place node, tree.locate false path = .found place node ∧ node ≠ .directory ∧
      tree.remove path = if tree.access place = .full then tree.erase place else tree := by
  obtain ⟨place, content, hfound⟩ := exists_of_isFile h
  obtain ⟨named, node, hnamed, hother⟩ := found_locate_unfollowed hfound
  refine ⟨named, node, hnamed, hother, ?_⟩
  unfold remove
  rw [hnamed]
  cases node with
  | directory => exact absurd rfl hother
  | _ => rfl

/-- It leaves no file to find there, unless the entry has been kept. -/
theorem isFile_remove {tree : FileTree} {path : Text} (h : tree.isFile path = true)
    (hstill : (tree.remove path).isFile path = true) :
    tree.remove path = tree ∧ tree.IsKept path := by
  obtain ⟨named, node, hnamed, hother, hremove⟩ := remove_of_isFile h
  by_cases hfull : tree.access named = .full
  · -- What the path names now it named before, and that has gone.
    rw [if_pos hfull] at hremove
    obtain ⟨hroot, hnode⟩ := node?_of_found hnamed hother
    rw [hremove] at hstill
    obtain ⟨last, bytes, hlast⟩ := exists_of_isFile hstill
    obtain ⟨left, found, hleft, hkind⟩ := found_locate_unfollowed hlast
    have hbefore := found_locate_of_within (within_erase hroot) (fun _ _ => nofun) hleft
    obtain ⟨rfl, rfl⟩ : named = left ∧ node = found := by
      simpa using hnamed.symm.trans hbefore
    have hgone := (node?_of_found hleft hkind).2
    rw [node?_erase hroot, if_pos rfl] at hgone
    cases hgone
  · rw [if_neg hfull] at hremove
    exact ⟨hremove, named, node, hnamed, hfull⟩

theorem followed_of_named {tree : FileTree} {path : Text} {place : Place} {content : Bytes}
    (hnamed : tree.locate false path = .found place (.file content)) :
    tree.locate true path = .found place (.file content) := by
  rcases tree.locate_followed path with ⟨_, _, hlink⟩ | hsame
  · rw [hlink] at hnamed
    cases hnamed
  · exact hsame.trans hnamed

/-- A file that a path names is removed for a redirect to that path, if that is
allowed. -/
theorem clearFor_of_named {tree : FileTree} {path : Text} {place : Place} {content : Bytes}
    (hnamed : tree.locate false path = .found place (.file content)) :
    CommandLine.clearFor tree (.redirect path) =
      if tree.access place = .full then tree.erase place else tree := by
  simp [CommandLine.clearFor, isFile, remove, followed_of_named hnamed, hnamed]

/-- Once a redirect has been made, its path leads to no regular file, unless the entry
that it names has been kept. -/
theorem isFile_clearFor {tree : FileTree} {path : Text}
    (hstill : (CommandLine.clearFor tree (.redirect path)).isFile path = true) :
    CommandLine.clearFor tree (.redirect path) = tree ∧ tree.IsKept path := by
  by_cases hfile : tree.isFile path = true
  · simp only [CommandLine.clearFor, if_pos hfile] at hstill ⊢
    exact isFile_remove hfile hstill
  · simp only [CommandLine.clearFor, if_neg hfile] at hstill
    exact absurd hstill hfile

/-! Opening a redirect's file. -/

theorem append_file {place : Place} (hplace : place ≠ []) (tree : FileTree)
    (content bytes : Bytes) :
    (tree.insert place (.file content)).append place bytes =
      tree.insert place (.file (content ++ bytes)) := by
  simp [append, node?_insert hplace, insert_insert]

private theorem append_of_node {tree : FileTree} {place : Place} {content : Bytes}
    (h : tree.node? place = some (.file content)) (bytes : Bytes) :
    tree.append place bytes = tree.insert place (.file (content ++ bytes)) := by
  simp [append, h]

theorem append_device {tree : FileTree} {place : Place} (h : tree.node? place = some .device)
    (bytes : Bytes) : tree.append place bytes = tree := by
  simp [append, h]

/-- The file that is written to at the end of a path once a redirect to it has been made,
and what is in it before: a new file, or one that could not be removed. -/
inductive Receives (tree : FileTree) (path : Text) : Place → Bytes → Prop
  | fresh {place : Place} (vacant : tree.locate true path = .vacant place)
      (allowed : tree.access place = .full) : Receives tree path place []
  | kept {place : Place} {content : Bytes} (kept : tree.IsKept path)
      (found : tree.locate true path = .found place (.file content))
      (allowed : tree.access place ≠ .read) : Receives tree path place content

theorem Receives.unique {tree : FileTree} {path : Text} {place target : Place}
    {before held : Bytes} (h : tree.Receives path place before)
    (hother : tree.Receives path target held) : place = target ∧ before = held := by
  cases h with
  | fresh hvacant =>
      cases hother with
      | fresh hother => exact ⟨Destination.vacant.inj (hvacant.symm.trans hother), rfl⟩
      | kept _ hfound => cases hvacant.symm.trans hfound
  | kept _ hfound =>
      cases hother with
      | fresh hvacant => cases hvacant.symm.trans hfound
      | kept _ hother =>
          obtain ⟨rfl, hcontent⟩ := Destination.found.inj (hfound.symm.trans hother)
          exact ⟨rfl, Node.file.inj hcontent⟩

/-- A path opens the file that is written to at its end, or a device, or nothing. -/
theorem openFile?_cases {tree : FileTree} {path : Text}
    (hkept : tree.isFile path = true → tree.IsKept path) :
    (tree.openFile? path = none ∧ ∀ place before, ¬ tree.Receives path place before) ∨
    (∃ files place before, tree.Receives path place before ∧
      tree.openFile? path = some (files, place) ∧
      ∀ bytes, files.append place bytes = tree.insert place (.file (before ++ bytes))) ∨
    ∃ place, tree.locate true path = .found place .device ∧
      tree.openFile? path = some (tree, place) := by
  have hnothing : (∀ place, tree.locate true path = .vacant place → tree.access place ≠ .full) →
      (∀ place content, tree.locate true path = .found place (.file content) →
        tree.access place = .read) →
      ∀ place before, ¬ tree.Receives path place before := by
    rintro hvacant hfile place before (⟨hpath, hfull⟩ | ⟨-, hpath, hallowed⟩)
    · exact hvacant place hpath hfull
    · exact hallowed (hfile place before hpath)
  cases hpath : tree.locate true path with
  | found place node =>
      cases node with
      | file content =>
          by_cases hread : tree.access place = .read
          · refine .inl ⟨by simp [openFile?, hpath, hread], hnothing (by simp [hpath]) ?_⟩
            intro _ _ hother
            obtain ⟨rfl, -⟩ := Destination.found.inj (hpath.symm.trans hother)
            exact hread
          · have hnode := (node?_of_found hpath nofun).2
            exact .inr (.inl ⟨tree, place, content,
              .kept (hkept (by simp [isFile, hpath])) hpath hread,
              by simp [openFile?, hpath, hread], append_of_node hnode⟩)
      | directory =>
          exact .inl ⟨by simp [openFile?, hpath], hnothing (by simp [hpath]) (by simp [hpath])⟩
      | link text =>
          exact .inl ⟨by simp [openFile?, hpath], hnothing (by simp [hpath]) (by simp [hpath])⟩
      | device => exact .inr (.inr ⟨place, rfl, by simp [openFile?, hpath]⟩)
  | vacant place =>
      by_cases hfull : tree.access place = .full
      · have hroot := (node?_of_vacant hpath).1
        exact .inr (.inl ⟨_, place, [], .fresh hpath hfull, by simp [openFile?, hpath, hfull],
          append_file hroot tree []⟩)
      · refine .inl ⟨by simp [openFile?, hpath, hfull], hnothing ?_ (by simp [hpath])⟩
        intro _ hother
        obtain rfl := Destination.vacant.inj (hpath.symm.trans hother)
        exact hfull
  | missing =>
      exact .inl ⟨by simp [openFile?, hpath], hnothing (by simp [hpath]) (by simp [hpath])⟩
  | nowhere =>
      exact .inl ⟨by simp [openFile?, hpath], hnothing (by simp [hpath]) (by simp [hpath])⟩

theorem append_nil (tree : FileTree) (place : Place) : tree.append place [] = tree := by
  unfold append
  split
  · rename_i content hnode
    have hplace : place ≠ [] := by
      rintro rfl
      simp [node?] at hnode
    simpa using insert_eq_self hplace hnode
  · rfl

/-- What is written in two goes is written behind one another. -/
theorem append_append (tree : FileTree) (place : Place) (first second : Bytes) :
    (tree.append place first).append place second = tree.append place (first ++ second) := by
  cases hnode : tree.node? place with
  | none => simp [append, hnode]
  | some node =>
      cases node with
      | file content =>
          have hplace : place ≠ [] := by
            rintro rfl
            simp [node?] at hnode
          have hinsert := insert_eq_self hplace hnode
          rw [← hinsert, append_file hplace, append_file hplace, append_file hplace,
            List.append_assoc]
      | _ => simp [append, hnode]

/-! What other stages see of a redirect's file. -/

private theorem within_insert {tree : FileTree} (hplace : target ≠ [])
    (hvacant : tree.node? target = none) (node : Node) :
    Within none tree (tree.insert target node) := by
  refine ⟨rfl, fun place other hother => .inl ?_⟩
  rw [node?_insert hplace]
  split
  · rename_i hsame
    rw [← hsame, hvacant] at hother
    cases hother
  · exact hother

private theorem within_of_insert {tree : FileTree} (hplace : target ≠ []) (content : Bytes) :
    Within (some target) (tree.insert target (.file content)) tree := by
  refine ⟨rfl, fun place other hother => ?_⟩
  rw [node?_insert hplace] at hother
  split at hother
  · rename_i hsame
    exact .inr ⟨by rw [hsame], content, (Option.some.inj hother).symm⟩
  · exact .inl hother

/-- A new file changes nothing about the paths that led to files. -/
theorem read?_insert {tree : FileTree} {path : Text} (hplace : target ≠ [])
    (hvacant : tree.node? target = none) (hfile : tree.isFile path = true) (node : Node) :
    (tree.insert target node).read? path = tree.read? path := by
  unfold isFile at hfile
  split at hfile
  · rename_i place content hfound
    have hafter := found_locate_of_within (within_insert hplace hvacant node)
      (fun _ _ => nofun) hfound
    simp [read?, hfound, hafter]
  · cases hfile

/-- A new file changes nothing about the paths that lead to directories. -/
theorem locate_directory_insert {tree : FileTree} {path : Text} (hplace : target ≠ [])
    (hvacant : tree.node? target = none) (content : Bytes) (place : Place) :
    (tree.insert target (.file content)).locate true path = .found place .directory ↔
      tree.locate true path = .found place .directory := by
  have hdirectory : ∀ (spare : Option Place) (bytes : Bytes),
      Node.directory = .file bytes → spare ≠ some place := nofun
  constructor
  · exact found_locate_of_within (within_of_insert hplace content) (hdirectory _)
  · exact found_locate_of_within (within_insert hplace hvacant _) (hdirectory _)

/-- A new file is listed in its own directory alone. -/
theorem namesIn_insert {tree : FileTree} {place : Place} (htarget : target ≠ [])
    (hother : target.dropLast ≠ place) (node : Node) :
    (tree.insert target node).namesIn place = tree.namesIn place := by
  refine namesIn_eq (pairwise_namesIn tree place) fun name => ?_
  have hne : target ≠ place ++ [name] := by
    rintro rfl
    simp at hother
  rw [mem_namesIn, node?_insert htarget, if_neg hne]

theorem list?_of_found {tree : FileTree} {path : Text} {place : Place}
    (h : tree.locate true path = .found place .directory) :
    tree.list? path = some (tree.namesIn place) := by
  simp [list?, h]

theorem list?_of_none {tree : FileTree} {path : Text}
    (h : ∀ place, tree.locate true path ≠ .found place .directory) : tree.list? path = none := by
  unfold list?
  split
  · rename_i place hfound
    exact absurd hfound (h place)
  · rfl

/-- A new file does not show where another directory is listed. -/
theorem list?_insert {tree : FileTree} {path : Text} (htarget : target ≠ [])
    (hvacant : tree.node? target = none)
    (hother : tree.locate true path ≠ .found target.dropLast .directory) (content : Bytes) :
    (tree.insert target (.file content)).list? path = tree.list? path := by
  by_cases hfound : ∃ place, tree.locate true path = .found place .directory
  · obtain ⟨place, hfound⟩ := hfound
    have hplace : target.dropLast ≠ place := by
      rintro rfl
      exact hother hfound
    rw [list?_of_found ((locate_directory_insert htarget hvacant content place).mpr hfound),
      list?_of_found hfound, namesIn_insert htarget hplace]
  · have hnone : ∀ place,
        (tree.insert target (.file content)).locate true path ≠ .found place .directory :=
      fun place h => hfound ⟨place, (locate_directory_insert htarget hvacant content place).mp h⟩
    rw [list?_of_none hnone, list?_of_none fun place h => hfound ⟨place, h⟩]

end LineShell.FileTree
