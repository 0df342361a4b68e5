import LineShell.Proofs.Openings

/-!
File trees that are alike but for some files. At certain places the one may have a
file where the other has another file, or nothing; everywhere else they have the
same. A path leads to the same in both, or to one of those places in both, or to
nothing in both, though what stands in its way may differ.
-/

namespace LineShell.FileTree

/-- Where a path leads whose last name is that of a place. -/
def atEnd (tree : FileTree) (place : Place) : Destination :=
  match tree.node? place with
  | some node => .found place node
  | none => .vacant place

/-- Whether there is a file at a place, or nothing. -/
def IsOpen (tree : FileTree) (place : Place) : Prop :=
  tree.node? place = none ∨ ∃ content, tree.node? place = some (.file content)

/-- Two trees that differ at spare places at most, where each has a file or nothing. -/
structure Alike (spare : Place → Prop) (tree other : FileTree) : Prop where
  start : other.start = tree.start
  access : other.access = tree.access
  same : ∀ place, ¬ spare place → other.node? place = tree.node? place
  left : ∀ place, spare place → tree.IsOpen place
  right : ∀ place, spare place → other.IsOpen place

def Destination.IsLost (destination : Destination) : Prop :=
  destination = .missing ∨ destination = .nowhere

/-- Where a path leads in two such trees. -/
inductive Destination.Alike (spare : Place → Prop) (tree other : FileTree)
    (first second : Destination) : Prop
  | same (equal : first = second)
  | spare {place : Place} (differs : spare place) (left : first = tree.atEnd place)
      (right : second = other.atEnd place)
  | lost (left : first.IsLost) (right : second.IsLost)

variable {spare : Place → Prop} {tree other third : FileTree} {follow : Bool} {path : Text}
  {place : Place}

theorem Alike.symm (h : Alike spare tree other) : Alike spare other tree :=
  ⟨h.start.symm, h.access.symm, fun place hplace => (h.same place hplace).symm, h.right, h.left⟩

theorem Alike.trans (h : Alike spare tree other) (hmore : Alike spare other third) :
    Alike spare tree third :=
  ⟨hmore.start.trans h.start, hmore.access.trans h.access,
   fun place hplace => (hmore.same place hplace).trans (h.same place hplace), h.left, hmore.right⟩

/-- At an open place a walk ends, or it is lost. -/
theorem IsOpen.walkNames {name : Text} (h : tree.IsOpen (place ++ [name])) (follow : Bool)
    (chase : Place → List Text → Destination) (rest : List Text) (hhere : name ≠ Path.here)
    (habove : name ≠ Path.above) (hshort : ¬ nameLimit < (Text.encode name).length) :
    (rest = [] ∧
      tree.walkNames follow chase place (name :: rest) = tree.atEnd (place ++ [name])) ∨
    rest ≠ [] ∧ (tree.walkNames follow chase place (name :: rest)).IsLost := by
  rw [FileTree.walkNames, if_neg hhere, if_neg habove, if_neg hshort, atEnd]
  by_cases hrest : rest = []
  · left
    rcases h with hnode | ⟨content, hnode⟩ <;> simp [hnode, hrest]
  · right
    rcases h with hnode | ⟨content, hnode⟩ <;> simp [hnode, hrest, Destination.IsLost]

private theorem Alike.walkNames (h : Alike spare tree other)
    {chase further : Place → List Text → Destination}
    (hchase : ∀ place steps,
      Destination.Alike spare tree other (chase place steps) (further place steps))
    (place : Place) (steps : List Text) :
    Destination.Alike spare tree other (tree.walkNames follow chase place steps)
      (other.walkNames follow further place steps) := by
  induction steps generalizing place with
  | nil => exact .same rfl
  | cons name rest ih =>
      by_cases hhere : name = Path.here
      · rw [FileTree.walkNames, FileTree.walkNames, if_pos hhere, if_pos hhere]
        exact ih place
      by_cases habove : name = Path.above
      · rw [FileTree.walkNames, FileTree.walkNames, if_neg hhere, if_neg hhere, if_pos habove,
          if_pos habove]
        exact ih place.dropLast
      by_cases hlong : nameLimit < (Text.encode name).length
      · rw [FileTree.walkNames, FileTree.walkNames, if_neg hhere, if_neg hhere, if_neg habove,
          if_neg habove, if_pos hlong, if_pos hlong]
        exact .same rfl
      by_cases hspare : spare (place ++ [name])
      · have hone := (h.left _ hspare).walkNames follow chase rest hhere habove hlong
        have htwo := (h.right _ hspare).walkNames follow further rest hhere habove hlong
        rcases hone with ⟨hrest, hleft⟩ | ⟨hrest, hleft⟩ <;>
          rcases htwo with ⟨hmore, hright⟩ | ⟨hmore, hright⟩
        · exact .spare hspare hleft hright
        · exact absurd hrest hmore
        · exact absurd hmore hrest
        · exact .lost hleft hright
      · rw [FileTree.walkNames, FileTree.walkNames, if_neg hhere, if_neg hhere, if_neg habove,
          if_neg habove, if_neg hlong, if_neg hlong, h.same _ hspare]
        cases tree.node? (place ++ [name]) with
        | none => exact .same rfl
        | some node =>
            cases node with
            | directory => exact ih (place ++ [name])
            | file content => exact .same rfl
            | device => exact .same rfl
            | link text =>
                by_cases hlast : rest = [] ∧ follow = false
                · simp only [if_pos hlast]
                  exact .same rfl
                · simp only [if_neg hlast]
                  exact hchase _ _

theorem Alike.locate (h : Alike spare tree other) (follow : Bool) (path : Text) :
    Destination.Alike spare tree other (tree.locate follow path) (other.locate follow path) := by
  have hwalk : ∀ hops place steps, Destination.Alike spare tree other
      (tree.walk follow hops place steps) (other.walk follow hops place steps) := by
    intro hops
    induction hops with
    | zero => exact h.walkNames fun _ _ => .same rfl
    | succ hops ih => exact h.walkNames ih
  simp only [FileTree.locate, h.start]
  generalize (if Path.isAbsolute path then [] else tree.start) = place
  split
  · exact .same rfl
  split
  · exact .same rfl
  by_cases hspare : spare place
  · have hleft := h.left place hspare
    have hright := h.right place hspare
    rcases hleft with hnode | ⟨_, hnode⟩ <;> rcases hright with hother | ⟨_, hother⟩ <;>
      rw [hnode, hother] <;> exact .same rfl
  · rw [h.same _ hspare]
    split
    · exact hwalk _ _ _
    · exact .same rfl

private theorem atEnd_eq_found {node : Node} {target : Place}
    (h : tree.atEnd place = .found target node) :
    target = place ∧ tree.node? place = some node := by
  unfold atEnd at h
  split at h
  · rename_i found hfound
    obtain ⟨rfl, rfl⟩ := Destination.found.inj h
    exact ⟨rfl, hfound⟩
  · cases h

private theorem atEnd_injective {target : Place} (h : tree.atEnd target = tree.atEnd place) :
    target = place := by
  unfold atEnd at h
  split at h <;> split at h <;> cases h <;> rfl

theorem not_isLost_atEnd : ¬ (tree.atEnd place).IsLost := by
  unfold atEnd
  split <;> rintro (h | h) <;> cases h

/-- A path that leads to something, but for a file at a spare place, leads to the same
in both trees. -/
theorem Alike.found (h : Alike spare tree other) {node : Node}
    (hkept : ∀ content, node = .file content → ¬ spare place)
    (hfound : tree.locate follow path = .found place node) :
    other.locate follow path = .found place node := by
  cases h.locate follow path with
  | same hequal => exact hequal ▸ hfound
  | @spare target hspare hleft _ =>
      obtain ⟨rfl, hnode⟩ := atEnd_eq_found (hleft.symm.trans hfound)
      rcases h.left _ hspare with hnone | ⟨content, hfile⟩
      · rw [hnone] at hnode
        cases hnode
      · exact absurd hspare (hkept content (Option.some.inj (hnode.symm.trans hfile)))
  | lost hleft _ => rcases hfound ▸ hleft with hmissing | hnowhere <;> contradiction

/-- A device is no spare place. -/
theorem Alike.device (h : Alike spare tree other) (hdevice : tree.node? place = some .device) :
    other.node? place = some .device := by
  by_cases hspare : spare place
  · rcases h.left place hspare with hnone | ⟨content, hfile⟩
    · rw [hdevice] at hnone
      cases hnone
    · rw [hdevice] at hfile
      cases hfile
  · exact (h.same place hspare).trans hdevice

/-- A path that leads to a spare place leads there in both trees. -/
theorem Alike.atEnd (h : Alike spare tree other) (hspare : spare place)
    (hend : tree.locate follow path = tree.atEnd place) :
    other.locate follow path = other.atEnd place := by
  have hshown := shown_locate other follow path
  cases h.locate follow path with
  | same hequal =>
      have hother : other.locate follow path = tree.atEnd place := hequal.symm.trans hend
      rw [hother] at hshown
      rcases h.left _ hspare with hnode | ⟨content, hnode⟩
      · rw [FileTree.atEnd, hnode] at hother hshown
        rw [hother, FileTree.atEnd, hshown.2]
      · rw [FileTree.atEnd, hnode] at hother hshown
        rw [hother, FileTree.atEnd, (hshown.resolve_left nofun).2]
  | @spare target _ hleft hright =>
      obtain rfl := atEnd_injective (hleft.symm.trans hend)
      exact hright
  | lost hleft _ => exact absurd (hend ▸ hleft) not_isLost_atEnd

theorem Alike.widen (h : Alike spare tree other) {more : Place → Prop}
    (hmore : ∀ place, spare place → more place) (hopen : ∀ place, more place → tree.IsOpen place) :
    Alike more tree other := by
  refine ⟨h.start, h.access, fun place hplace => h.same place fun hspare =>
    hplace (hmore place hspare), hopen, fun place hplace => ?_⟩
  by_cases hspare : spare place
  · exact h.right place hspare
  · rw [IsOpen, h.same place hspare]
    exact hopen place hplace

/-- A file that is no spare one reads the same in both trees. -/
theorem Alike.read? (h : Alike spare tree other) {content : Bytes} (hkept : ¬ spare place)
    (hfound : tree.locate true path = .found place (.file content)) :
    other.read? path = tree.read? path := by
  simp only [FileTree.read?, hfound, h.found (fun _ _ => hkept) hfound]

/-- A directory without spare places has the same names in both trees. -/
theorem Alike.list? (h : Alike spare tree other)
    (hkept : ∀ place, spare place → tree.locate true path ≠ .found place.dropLast .directory) :
    other.list? path = tree.list? path := by
  by_cases hfound : ∃ place, tree.locate true path = .found place .directory
  · obtain ⟨place, hfound⟩ := hfound
    have hother := h.found (by nofun) hfound
    rw [list?_of_found hfound, list?_of_found hother]
    refine congrArg some (namesIn_eq (pairwise_namesIn tree place) fun name => ?_)
    have hname : ¬ spare (place ++ [name]) := by
      intro hspare
      exact hkept _ hspare (by rw [List.dropLast_concat, hfound])
    rw [mem_namesIn, h.same _ hname]
  · have hother : ∀ place, other.locate true path ≠ .found place .directory :=
      fun place hplace => hfound ⟨place, h.symm.found (by nofun) hplace⟩
    rw [list?_of_none hother, list?_of_none fun place hplace => hfound ⟨place, hplace⟩]

end LineShell.FileTree
