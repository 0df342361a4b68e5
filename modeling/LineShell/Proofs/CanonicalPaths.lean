import LineShell.Proofs.ResolvedPaths

/-!
Paths in canonical form: the root, or names that each stand for something, one slash
before each of them. Where the working directory is absolute every path is resolved
to one of these. On them the two ways up agree: to take the last name off the text,
and to resolve `..`.
-/

namespace LineShell.Path

/-- A name that leads down from a directory. -/
structure Proper (name : Text) : Prop where
  filled : name ≠ []
  free : '/' ∉ name
  notHere : name ≠ here
  notAbove : name ≠ above

/-- An absolute path without empty names, `.` and `..`, and without a slash at its end
unless it is the root. -/
def IsCanonical (path : Text) : Prop :=
  ∃ names : List Text, path = '/' :: Text.joinWith '/' names ∧ ∀ name ∈ names, Proper name

theorem IsCanonical.isAbsolute {path : Text} (h : IsCanonical path) : isAbsolute path = true := by
  obtain ⟨names, rfl, -⟩ := h
  simp [Path.isAbsolute]

theorem Proper.isName {name : Text} (h : Proper name) : IsName name :=
  ⟨h.filled, h.free, h.notHere⟩

/-- From an absolute directory every path is resolved to its canonical form. -/
theorem isCanonical_resolve {directory : Text} (h : isAbsolute directory = true) (path : Text) :
    IsCanonical (resolve directory path) := by
  obtain ⟨stack, hfolded, hnames, hresolved⟩ := exists_folded_resolve directory path
  rw [h, Bool.or_true] at hfolded hresolved
  obtain ⟨climbs, names, rfl, habove, hroot⟩ := hfolded.upFirst
  obtain rfl := hroot rfl
  refine ⟨names, hresolved, fun name hname => ?_⟩
  obtain ⟨hfilled, hfree, hhere⟩ := hnames name hname
  exact ⟨hfilled, hfree, hhere, fun heq => habove (heq ▸ hname)⟩

/-! The two ways up. -/

/-- Behind proper names `..` takes the last one off. -/
theorem folded_concat_above {names : List Text} (h : ∀ name ∈ names, Proper name) :
    Folded true (names ++ [above]) names.dropLast := by
  have hfirst : UpFirst true names :=
    ⟨0, names, rfl, fun hmem => (h above hmem).notAbove rfl, fun _ => rfl⟩
  cases names using List.reverseRecOn with
  | nil => exact .atRoot .start rfl
  | append_singleton front last =>
      rw [List.dropLast_concat]
      exact hfirst.folded.up (h last (by simp)).notAbove

private theorem resolve_above {names : List Text} (h : ∀ name ∈ names, Proper name) :
    resolve ('/' :: Text.joinWith '/' names) above =
      '/' :: Text.joinWith '/' names.dropLast := by
  change resolve (render true names) above = render true names.dropLast
  have hnames : ∀ name ∈ names, IsName name := fun name hname => (h name hname).isName
  have hpieces : ∀ name ∈ names ++ [above], IsName name :=
    List.forall_mem_append.mpr ⟨hnames, List.forall_mem_singleton.mpr isName_above⟩
  rw [resolve, join_render hnames isName_above, normalize, isAbsolute_render hpieces,
    names_render hpieces, (folded_concat_above h).fold_eq]

private theorem parent?_concat {front : List Text} {last : Text}
    (h : ∀ name ∈ front ++ [last], Proper name) :
    parent? ('/' :: Text.joinWith '/' (front ++ [last])) =
      some ('/' :: Text.joinWith '/' front) :=
  @parent?_render true front last (fun name hname => (h name (List.mem_append_left _ hname)).isName)
    (h last (by simp)).isName

/-- What is above a canonical path is canonical. -/
theorem isCanonical_of_parent? {path directory : Text} (h : IsCanonical path)
    (hparent : parent? path = some directory) : IsCanonical directory := by
  obtain ⟨names, rfl, hnames⟩ := h
  cases names using List.reverseRecOn with
  | nil => cases hparent
  | append_singleton front last =>
      rw [parent?_concat hnames] at hparent
      obtain rfl := Option.some.inj hparent
      exact ⟨front, rfl, fun name hname => hnames name (List.mem_append_left _ hname)⟩

/-- The two ways up from a canonical path agree. The root has nothing above it and
resolves `..` to itself. -/
theorem parent?_getD_eq_resolve {path : Text} (h : IsCanonical path) :
    (parent? path).getD path = resolve path above := by
  obtain ⟨names, rfl, hnames⟩ := h
  rw [resolve_above hnames]
  cases names using List.reverseRecOn with
  | nil => rfl
  | append_singleton front last =>
      rw [parent?_concat hnames, List.dropLast_concat, Option.getD_some]

end LineShell.Path
