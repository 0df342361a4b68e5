import LineShell.World

/-!
The names in a directory. They are in ascending order, each of them once, and
they are the names of what is directly below the directory's place; so two
trees with the same places there list the same names.
-/

namespace LineShell.FileTree

/-- Texts are compared character by character. -/
theorem compare_eq_lt_iff (first second : Text) :
    compare first second = .lt ↔ first < second := by
  induction first generalizing second with
  | nil =>
      cases second with
      | nil => simp
      | cons c rest => simp [List.compare_nil_cons]
  | cons c rest ih =>
      cases second with
      | nil => simp [List.compare_cons_nil]
      | cons d more =>
          have hchar : compare c d = .lt ↔ c < d := compareOfLessAndEq_eq_lt
          rw [List.compare_cons_cons, Ordering.then_eq_lt, List.cons_lt_cons_iff, ih, hchar,
            Std.LawfulEqCmp.compare_eq_iff_eq]

/-- In one directory the places are in the order of their last names. -/
theorem compare_append_singleton (place : Place) (first second : Text) :
    compare (place ++ [first]) (place ++ [second]) = compare first second := by
  induction place with
  | nil =>
      rw [List.nil_append, List.nil_append, List.compare_cons_cons, List.compare_nil_nil]
      cases compare first second <;> rfl
  | cons name rest ih =>
      rw [List.cons_append, List.cons_append, List.compare_cons_cons, ih,
        Std.ReflOrd.compare_self]
      rfl

private theorem eq_append_of_getLast? {entry place : Place} {name : Text}
    (h : (if entry.dropLast = place then entry.getLast? else none) = some name) :
    entry = place ++ [name] := by
  split at h
  · rename_i hplace
    obtain ⟨front, rfl⟩ := List.getLast?_eq_some_iff.mp h
    rw [← hplace, List.dropLast_concat]
  · cases h

theorem mem_namesIn (tree : FileTree) (place : Place) (name : Text) :
    name ∈ tree.namesIn place ↔ tree.node? (place ++ [name]) ≠ none := by
  have hnode : tree.node? (place ++ [name]) ≠ none ↔ place ++ [name] ∈ tree.nodes := by
    rw [node?, if_neg (by simp), Std.ExtTreeMap.mem_iff_isSome_getElem?,
      Option.isSome_iff_ne_none]
  rw [hnode, namesIn, List.mem_filterMap]
  constructor
  · rintro ⟨entry, hentry, hname⟩
    obtain rfl := eq_append_of_getLast? hname
    exact Std.ExtTreeMap.mem_keys.mp hentry
  · intro hentry
    exact ⟨place ++ [name], Std.ExtTreeMap.mem_keys.mpr hentry, by simp⟩

theorem pairwise_namesIn (tree : FileTree) (place : Place) :
    (tree.namesIn place).Pairwise (· < ·) := by
  refine tree.nodes.ordered_keys.filterMap _ ?_
  intro first second hless one hone other hother
  obtain rfl := eq_append_of_getLast? hone
  obtain rfl := eq_append_of_getLast? hother
  rwa [compare_append_singleton, compare_eq_lt_iff] at hless

/-- No other list of names is in order and has the same names in it. -/
theorem namesIn_eq {tree : FileTree} {place : Place} {names : List Text}
    (hsorted : names.Pairwise (· < ·))
    (hnames : ∀ name, name ∈ names ↔ tree.node? (place ++ [name]) ≠ none) :
    tree.namesIn place = names := by
  have hordered : ∀ {some : List Text}, some.Pairwise (· < ·) →
      some.Pairwise fun first second => compare first second = .lt :=
    fun h => h.imp (compare_eq_lt_iff _ _).mpr
  have hone := hordered (pairwise_namesIn tree place)
  have hother := hordered hsorted
  have hdistinct : ∀ {first second : Text}, compare first second = .lt → first ≠ second := by
    rintro first _ hless rfl
    rw [Std.ReflOrd.compare_self] at hless
    cases hless
  have hmem : ∀ name, name ∈ tree.namesIn place ↔ name ∈ names := fun name =>
    (mem_namesIn tree place name).trans (hnames name).symm
  have hperm := (List.perm_ext_iff_of_nodup (hone.imp hdistinct) (hother.imp hdistinct)).mpr hmem
  have hasymm : ∀ {first second : Text}, compare first second = .lt →
      compare second first ≠ .lt := Std.OrientedCmp.not_lt_of_lt
  exact hperm.eq_of_pairwise (fun _ _ _ _ hless hmore => absurd hmore (hasymm hless)) hone hother

end LineShell.FileTree
