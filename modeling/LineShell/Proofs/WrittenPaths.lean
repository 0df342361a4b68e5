import LineShell.Path
import LineShell.Proofs.TextPieces

/-!
Paths as they are written from names that each stand for something, from the root or
not. From such a text the names can be read back, a name can be appended to it by one
slash, and its last name can be taken off; no other spelling is needed to go on.
-/

namespace LineShell.Path

/-- A name that stands for something between two slashes; `..` is one. -/
structure IsName (name : Text) : Prop where
  filled : name ≠ []
  free : '/' ∉ name
  notHere : name ≠ here

variable {rooted : Bool} {stack : List Text} {name : Text}

theorem isName_above : IsName above where
  filled := by decide
  free := by decide
  notHere := by decide

theorem isName_of_mem_names {path : Text} (h : name ∈ names path) : IsName name := by
  obtain ⟨hpiece, hkept⟩ := List.mem_filter.mp h
  obtain ⟨hfilled, hhere⟩ : name ≠ [] ∧ name ≠ here := by simpa using hkept
  exact ⟨hfilled, Text.not_mem_of_mem_split hpiece, hhere⟩

/-- A path without the slash that it starts with, if it does. -/
def body (path : Text) : Text :=
  if isAbsolute path then path.tail else path

private theorem isAbsolute_joinWith (h : ∀ name ∈ stack, IsName name) :
    isAbsolute (Text.joinWith '/' stack) = false := by
  cases stack with
  | nil => rfl
  | cons name rest =>
      obtain ⟨hfilled, hfree, -⟩ := h name List.mem_cons_self
      cases name with
      | nil => exact absurd rfl hfilled
      | cons c more =>
          have hc : c ≠ '/' := fun heq => hfree (heq ▸ List.mem_cons_self)
          cases rest <;> simp [Text.joinWith, isAbsolute, hc]

theorem isAbsolute_render (h : ∀ name ∈ stack, IsName name) :
    isAbsolute (render rooted stack) = rooted := by
  cases rooted with
  | false => exact isAbsolute_joinWith h
  | true => simp [isAbsolute, render]

theorem body_render (h : ∀ name ∈ stack, IsName name) :
    body (render rooted stack) = Text.joinWith '/' stack := by
  rw [body, isAbsolute_render h]
  cases rooted <;> rfl

/-- What a path is cut into is what it was written from, but for the empty path. -/
theorem split_joinWith_names (h : ∀ name ∈ stack, IsName name) :
    Text.split '/' (Text.joinWith '/' stack) = if stack = [] then [[]] else stack := by
  split
  · rename_i hnil
    rw [hnil]
    rfl
  · rename_i hne
    exact Text.split_joinWith hne fun name hname => (h name hname).free

theorem mem_split_render (h : ∀ name ∈ stack, IsName name) {piece : Text}
    (hpiece : piece ∈ Text.split '/' (render rooted stack)) : piece = [] ∨ piece ∈ stack := by
  have hbody : piece ∈ Text.split '/' (Text.joinWith '/' stack) → piece = [] ∨ piece ∈ stack := by
    rw [split_joinWith_names h]
    split
    · exact fun hmem => .inl (List.mem_singleton.mp hmem)
    · exact .inr
  cases rooted with
  | false => exact hbody hpiece
  | true =>
      rw [render, if_pos rfl, Text.split, if_pos rfl] at hpiece
      exact (List.mem_cons.mp hpiece).elim .inl hbody

/-- The names along a path are those it was written from. -/
theorem names_render (h : ∀ name ∈ stack, IsName name) : names (render rooted stack) = stack := by
  have hkept : stack.filter (fun name => name ≠ [] && name ≠ here) = stack := by
    rw [List.filter_eq_self]
    intro name hname
    simp [(h name hname).filled, (h name hname).notHere]
  have hbody : names (Text.joinWith '/' stack) = stack := by
    rw [names, split_joinWith_names h]
    split
    · rename_i hnil
      rw [hnil]
      rfl
    · exact hkept
  cases rooted with
  | false => exact hbody
  | true =>
      rw [render, if_pos rfl, names, Text.split, if_pos rfl, List.filter_cons_of_neg (by simp)]
      exact hbody

theorem isAbsolute_append {path : Text} (hne : path ≠ []) (more : Text) :
    isAbsolute (path ++ more) = isAbsolute path := by
  cases path with
  | nil => exact absurd rfl hne
  | cons c rest => rfl

theorem isAbsolute_join (directory path : Text) :
    isAbsolute (join directory path) = (isAbsolute path || isAbsolute directory) := by
  unfold join
  by_cases habsolute : isAbsolute path = true
  · rw [if_pos habsolute, habsolute, Bool.true_or]
  · rw [if_neg habsolute, Bool.eq_false_iff.mpr habsolute, Bool.false_or]
    by_cases hnil : directory = []
    · rw [if_pos (.inl hnil), hnil, List.nil_append, Bool.eq_false_iff.mpr habsolute]
      rfl
    · split <;> exact isAbsolute_append hnil _

private theorem render_concat (hne : stack ≠ []) (name : Text) :
    render rooted (stack ++ [name]) = render rooted stack ++ '/' :: name := by
  cases rooted <;> simp [render, Text.joinWith_append_singleton '/' hne]

/-- A path that is written from names does not end in a slash, unless it is the root. -/
theorem getLast?_render (h : ∀ name ∈ stack, IsName name) (hne : stack ≠ []) :
    ∃ c, (render rooted stack).getLast? = some c ∧ c ≠ '/' := by
  cases stack using List.reverseRecOn with
  | nil => exact absurd rfl hne
  | append_singleton front last =>
      have hlast := h last (by simp)
      obtain ⟨c, hc⟩ : ∃ c, last.getLast? = some c :=
        Option.isSome_iff_exists.mp (by simpa using hlast.filled)
      refine ⟨c, ?_, fun heq => hlast.free (heq ▸ List.mem_of_getLast? hc)⟩
      by_cases hfront : front = []
      · cases rooted <;> simp [hfront, render, Text.joinWith, List.getLast?_cons, hc]
      · rw [render_concat hfront]
        simp [List.getLast?_append, List.getLast?_cons, hc]

/-- A name is appended by one slash, or by none where the path is empty or ends in one. -/
theorem join_render (h : ∀ name ∈ stack, IsName name) (hname : IsName name) :
    join (render rooted stack) name = render rooted (stack ++ [name]) := by
  have hrelative : isAbsolute name = false := by
    simpa [Text.joinWith] using isAbsolute_joinWith (List.forall_mem_singleton.mpr hname)
  rw [join, hrelative, if_neg Bool.false_ne_true]
  by_cases hnil : stack = []
  · rw [hnil]
    cases rooted <;> rfl
  · obtain ⟨c, hlast, hc⟩ : ∃ c, (render rooted stack).getLast? = some c ∧ c ≠ '/' :=
      getLast?_render h hnil
    have hfilled : render rooted stack ≠ [] := fun hempty => by simp [hempty] at hlast
    rw [if_neg (by simp [hlast, hfilled, hc]), render_concat hnil]

private theorem dropIdle_reverse (h : ∀ name ∈ stack, IsName name) :
    dropIdle rooted stack.reverse = stack.reverse := by
  cases hreversed : stack.reverse with
  | nil => rfl
  | cons name before =>
      have hname := h name (List.mem_reverse.mp (hreversed ▸ List.mem_cons_self))
      simp [dropIdle, hname.filled, hname.notHere]

/-- The last name is taken off with the slash before it. -/
theorem parent?_render (h : ∀ name ∈ stack, IsName name) (hname : IsName name) :
    parent? (render rooted (stack ++ [name])) = some (render rooted stack) := by
  have hall : ∀ one ∈ stack ++ [name], IsName one := by
    simpa [or_imp, forall_and] using ⟨h, hname⟩
  have hpieces : Text.split '/' (body (render rooted (stack ++ [name]))) = stack ++ [name] := by
    rw [body_render hall, split_joinWith_names hall, if_neg (by simp)]
  have hdrop : dropIdle rooted (stack ++ [name]).reverse = (stack ++ [name]).reverse :=
    dropIdle_reverse hall
  dsimp only [parent?]
  rw [← body, hpieces, isAbsolute_render hall, hdrop, List.reverse_concat]
  dsimp only
  rw [dropIdle_reverse h, List.reverse_reverse]

end LineShell.Path
