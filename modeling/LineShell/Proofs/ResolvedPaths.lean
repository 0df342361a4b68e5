import LineShell.Proofs.WrittenPaths

/-!
What a path is resolved to from any directory, absolute, relative or empty. Its names are
those left on a stack when the names of the joined path are put on it from left to right
and `..` takes one off; its text is written from these names and from nothing else, so
that resolving it again changes nothing.
-/

namespace LineShell.Path

variable {rooted : Bool} {read stack : List Text} {name : Text}

/-! The stack. -/

/-- The names that are left of those read so far, the last one last. A `..` takes the name
before it off. Without one to take off it is dropped at the root, and kept on a relative
path. -/
inductive Folded (rooted : Bool) : List Text → List Text → Prop
  | start : Folded rooted [] []
  | down {read stack : List Text} {name : Text} (before : Folded rooted read stack)
      (leads : name ≠ above) : Folded rooted (read ++ [name]) (stack ++ [name])
  | up {read stack : List Text} {name : Text} (before : Folded rooted read (stack ++ [name]))
      (leads : name ≠ above) : Folded rooted (read ++ [above]) stack
  | atRoot {read : List Text} (before : Folded rooted read []) (top : rooted = true) :
      Folded rooted (read ++ [above]) []
  | outside {read stack : List Text} (before : Folded rooted read stack)
      (relative : rooted = false) (only : ∀ name ∈ stack, name = above) :
      Folded rooted (read ++ [above]) (stack ++ [above])

/-- Names that lead up as far as they do at their start only, and not at all from the
root. -/
def UpFirst (rooted : Bool) (stack : List Text) : Prop :=
  ∃ climbs names, stack = List.replicate climbs above ++ names ∧ above ∉ names ∧
    (rooted = true → climbs = 0)

private theorem UpFirst.of_concat (h : UpFirst rooted (stack ++ [name])) (hname : name ≠ above) :
    UpFirst rooted stack := by
  obtain ⟨climbs, names, hstack, hnames, hroot⟩ := h
  cases names using List.reverseRecOn with
  | nil =>
      rw [List.append_nil] at hstack
      have hmem : name ∈ List.replicate climbs above := hstack ▸ by simp
      exact absurd (List.eq_of_mem_replicate hmem) hname
  | append_singleton front last =>
      rw [← List.append_assoc] at hstack
      exact ⟨climbs, front, List.append_inj_left' hstack rfl,
        fun hmem => hnames (List.mem_append_left _ hmem), hroot⟩

namespace Folded

theorem upFirst (h : Folded rooted read stack) : UpFirst rooted stack := by
  induction h with
  | start => exact ⟨0, [], rfl, by simp, fun _ => rfl⟩
  | down _ leads ih =>
      obtain ⟨climbs, names, rfl, hnames, hroot⟩ := ih
      exact ⟨climbs, names ++ [_], List.append_assoc .., by simp [hnames, leads.symm], hroot⟩
  | up _ leads ih => exact ih.of_concat leads
  | atRoot => exact ⟨0, [], rfl, by simp, fun _ => rfl⟩
  | @outside _ stack _ relative only =>
      refine ⟨stack.length + 1, [], ?_, by simp, fun hroot => by simp [relative] at hroot⟩
      rw [List.append_nil, List.replicate_succ', ← List.eq_replicate_length.mpr only]

private theorem subset (h : Folded rooted read stack) : stack ⊆ read := by
  induction h with
  | start => exact List.Subset.refl _
  | down _ _ ih => exact List.append_subset.mpr ⟨List.subset_append_of_subset_left _ ih, by simp⟩
  | up _ _ ih => exact List.Subset.trans (List.append_subset.mp ih).1 (List.subset_append_left _ _)
  | atRoot => exact List.nil_subset _
  | outside _ _ _ ih =>
      exact List.append_subset.mpr ⟨List.subset_append_of_subset_left _ ih, by simp⟩

end Folded

private theorem fold_concat (rooted : Bool) (read : List Text) (name : Text) :
    fold rooted (read ++ [name]) = (push rooted (fold rooted read).reverse name).reverse := by
  simp [fold]

/-- The names that are left are told by those that were read. -/
theorem Folded.fold_eq (h : Folded rooted read stack) : fold rooted read = stack := by
  induction h with
  | start => rfl
  | down _ leads ih => simp [fold_concat, ih, push, leads]
  | up _ leads ih => simp [fold_concat, ih, push, leads]
  | atRoot _ top ih => rw [fold_concat, ih, top]; rfl
  | @outside _ stack _ relative only ih =>
      cases stack using List.reverseRecOn with
      | nil => rw [fold_concat, ih, relative]; rfl
      | append_singleton below top =>
          simp [fold_concat, ih, push, only top (by simp)]

/-- Whatever is read leaves a stack. -/
theorem exists_folded (rooted : Bool) (read : List Text) : ∃ stack, Folded rooted read stack := by
  induction read using List.reverseRecOn with
  | nil => exact ⟨[], .start⟩
  | append_singleton read name ih =>
      obtain ⟨stack, hfolded⟩ := ih
      by_cases hname : name = above
      · obtain ⟨climbs, names, rfl, hnames, hroot⟩ := hfolded.upFirst
        rw [hname]
        cases names using List.reverseRecOn with
        | append_singleton front last =>
            rw [← List.append_assoc] at hfolded
            exact ⟨_, hfolded.up fun hlast => hnames (by simp [hlast])⟩
        | nil =>
            rw [List.append_nil] at hfolded
            cases rooted with
            | false => exact ⟨_, hfolded.outside rfl fun one => List.eq_of_mem_replicate⟩
            | true =>
                rw [hroot rfl] at hfolded
                exact ⟨[], hfolded.atRoot rfl⟩
      · exact ⟨stack ++ [name], hfolded.down hname⟩

private theorem folded_iff : Folded rooted read stack ↔ fold rooted read = stack := by
  refine ⟨Folded.fold_eq, ?_⟩
  rintro rfl
  obtain ⟨stack, hfolded⟩ := exists_folded rooted read
  exact hfolded.fold_eq ▸ hfolded

/-- On names that lead up first nothing is left to fold. -/
theorem UpFirst.folded (h : UpFirst rooted stack) : Folded rooted stack stack := by
  obtain ⟨climbs, names, rfl, hnames, hroot⟩ := h
  induction names using List.reverseRecOn with
  | nil =>
      rw [List.append_nil]
      induction climbs with
      | zero => exact .start
      | succ climbs ih =>
          have hrelative : rooted = false := by
            cases rooted with
            | false => rfl
            | true => cases hroot rfl
          rw [List.replicate_succ']
          exact (ih (by simp [hrelative])).outside hrelative fun one => List.eq_of_mem_replicate
  | append_singleton front last ih =>
      rw [← List.append_assoc]
      exact (ih fun hmem => hnames (List.mem_append_left _ hmem)).down fun hlast =>
        hnames (by simp [hlast])

/-! The text. -/

/-- A path of which no piece can be left out: no empty one, no `.`, and no `..` behind a
name or at the root. -/
structure IsResolved (path : Text) : Prop where
  noHere : here ∉ path.split '/'
  noEmpty : body path ≠ [] → [] ∉ (body path).split '/'
  noTrailing : path.getLast? = some '/' → path = ['/']
  noAbove : isAbsolute path = true → above ∉ path.split '/'
  upFirst : isAbsolute path = false → UpFirst false (path.split '/')

private theorem isResolved_render (h : ∀ name ∈ stack, IsName name)
    (hfirst : UpFirst rooted stack) :
    IsResolved (render rooted stack) where
  noHere := by
    intro hmem
    rcases mem_split_render h hmem with hempty | hname
    · cases hempty
    · exact (h here hname).notHere rfl
  noEmpty := by
    rw [body_render h, split_joinWith_names h]
    split
    · rename_i hnil
      exact fun hne => absurd (by rw [hnil]; rfl) hne
    · exact fun _ hmem => (h [] hmem).filled rfl
  noTrailing := by
    by_cases hnil : stack = []
    · rw [hnil]
      cases rooted with
      | false => simp [render, Text.joinWith]
      | true => exact fun _ => rfl
    · obtain ⟨c, hlast, hc⟩ : ∃ c, (render rooted stack).getLast? = some c ∧ c ≠ '/' :=
        getLast?_render h hnil
      rw [hlast]
      exact fun hslash => absurd (Option.some.inj hslash) hc
  noAbove := by
    rw [isAbsolute_render h]
    rintro hrooted hmem
    obtain ⟨climbs, names, rfl, hnames, hroot⟩ := hfirst
    rcases mem_split_render h hmem with hempty | hname
    · cases hempty
    · rw [hroot hrooted] at hname
      exact hnames hname
  upFirst := by
    rw [isAbsolute_render h]
    rintro rfl
    rw [render, if_neg Bool.false_ne_true, split_joinWith_names h]
    split
    · exact ⟨0, [[]], rfl, by decide, fun _ => rfl⟩
    · exact hfirst

/-- A path that is written from what is left is normalized already. -/
theorem normalize_render (h : ∀ name ∈ stack, IsName name) (hfirst : UpFirst rooted stack) :
    normalize (render rooted stack) = render rooted stack := by
  rw [normalize, isAbsolute_render h, names_render h, hfirst.folded.fold_eq]

/-- What a path is resolved to is written from the names that are left of the joined
path. -/
theorem exists_folded_resolve (directory path : Text) :
    ∃ stack, Folded (isAbsolute path || isAbsolute directory) (names (join directory path)) stack ∧
      (∀ name ∈ stack, IsName name) ∧
      resolve directory path = render (isAbsolute path || isAbsolute directory) stack := by
  obtain ⟨stack, hfolded⟩ :=
    exists_folded (isAbsolute path || isAbsolute directory) (names (join directory path))
  refine ⟨stack, hfolded, fun name hname => isName_of_mem_names (hfolded.subset hname), ?_⟩
  rw [resolve, normalize, isAbsolute_join, hfolded.fold_eq]

/-- A path is resolved to an absolute one exactly where it or the directory is absolute,
and to a text without idle pieces, that stays as it is when it is resolved again. Its names
are those left on the stack when the joined path is read. -/
theorem resolve_canonical (directory path : Text) :
    let resolved := resolve directory path
    isAbsolute resolved = (isAbsolute path || isAbsolute directory) ∧
    IsResolved resolved ∧
    (isAbsolute resolved = true → ∀ other, resolve other resolved = resolved) ∧
    resolve [] resolved = resolved ∧
    ∀ stack, Folded (isAbsolute resolved) (names (join directory path)) stack ↔
      names resolved = stack := by
  intro resolved
  obtain ⟨stack, hfolded, hnames, (hresolved : resolved = _)⟩ :=
    exists_folded_resolve directory path
  have hfirst := hfolded.upFirst
  have habsolute : isAbsolute resolved = (isAbsolute path || isAbsolute directory) := by
    rw [hresolved, isAbsolute_render hnames]
  have hnormal : normalize resolved = resolved := by
    rw [hresolved, normalize_render hnames hfirst]
  refine ⟨habsolute, ?_, ?_, ?_, ?_⟩
  · rw [hresolved]
    exact isResolved_render hnames hfirst
  · intro hrooted other
    rw [resolve, join, if_pos hrooted, hnormal]
  · rw [resolve, join, if_pos (Or.inl rfl), List.nil_append, ite_self, hnormal]
  · intro other
    rw [habsolute, folded_iff, hfolded.fold_eq, hresolved, names_render hnames]

end LineShell.Path
