import Mathlib.Data.List.Induction
import Mathlib.Data.List.Nodup
import Mathlib.Tactic.MkIffOfInductiveProp
import LineShell.Stage

/-!
Attempts to link the stages of a list, one after another. However many there are, each
stage is linked to what the attempts that succeeded say and to nothing else: they are a
matching of predecessors with successors, and the next attempt depends on it and on the
two verbs alone.
-/

namespace LineShell

/-- A link of two stages, named by their positions in a list. -/
structure Link where
  first : Nat
  second : Nat
deriving DecidableEq, Repr

namespace Link

/-- A list has both stages, and they are two. -/
@[mk_iff]
structure Fits (link : Link) (stages : List Stage) : Prop where
  first : link.first < stages.length
  second : link.second < stages.length
  different : link.first ≠ link.second

instance {link : Link} {stages : List Stage} : Decidable (link.Fits stages) :=
  decidable_of_iff _ (fits_iff link stages).symm

end Link

/-- Stages that are being linked, with the links that were made, the last one last. -/
structure Linking where
  stages : List Stage
  links : List Link := []
deriving DecidableEq, Repr

namespace Linking

/-- An attempt to make a link. One that is refused leaves everything as it is. -/
def attempt (linking : Linking) (link : Link) : Linking :=
  match Stage.attach linking.stages link.first link.second with
  | .ok stages => { stages, links := linking.links ++ [link] }
  | .error _ => linking

/-- What some attempts make of a list of stages, from the first attempt to the last. -/
def ofAttempts (made : List Stage) (attempts : List Link) : Linking :=
  attempts.foldl attempt { stages := made }

end Linking

namespace Stage

variable {made : List Stage} {links attempts : List Link} {link : Link} {one other : Stage}

/-- A stage without a predecessor and a successor. -/
@[mk_iff]
structure IsUnlinked (stage : Stage) : Prop where
  input : stage.hasInput = false
  output : stage.hasOutput = false

instance {stage : Stage} : Decidable stage.IsUnlinked :=
  decidable_of_iff _ (isUnlinked_iff stage).symm

/-- A stage at a position, linked by some links. -/
def linkedAt (links : List Link) (place : Nat) (stage : Stage) : Stage :=
  { stage with
    hasInput := place ∈ links.map Link.second
    hasOutput := place ∈ links.map Link.first }

/-- Stages with an input where a link leads to and with an output where one comes from. -/
def linkedBy (links : List Link) (made : List Stage) : List Stage :=
  made.mapIdx (linkedAt links)

/-- What speaks against linking two stages when some links are there, in the order in which
it is reported. -/
def objections (links : List Link) (link : Link) (one other : Stage) : List ShellError :=
  (if other.verb.acceptsInput then [] else [.cannotHaveInput other.command]) ++
  (if one.verb.producesOutput then [] else [.cannotHaveOutput one.command]) ++
  (if link.second ∈ links.map Link.second then [.alreadyLinked other.command] else []) ++
  (if link.first ∈ links.map Link.first then [.alreadyLinked one.command] else [])

private theorem objections_eq_nil_iff :
    objections links link one other = [] ↔
      other.verb.acceptsInput = true ∧ one.verb.producesOutput = true ∧
        link.second ∉ links.map Link.second ∧ link.first ∉ links.map Link.first := by
  simp [objections]

/-- Two stages refuse a link with the first objection to it. -/
theorem link_linkedAt :
    (linkedAt links link.first one).link (linkedAt links link.second other) =
      match objections links link one other with
      | [] => .ok ({ linkedAt links link.first one with hasOutput := true },
          { linkedAt links link.second other with hasInput := true })
      | error :: _ => .error error := by
  by_cases haccepts : other.verb.acceptsInput = true
  · by_cases hproduces : one.verb.producesOutput = true
    · by_cases hsecond : link.second ∈ links.map Link.second
      · simp [Stage.link, objections, linkedAt, haccepts, hproduces, hsecond]
      · by_cases hfirst : link.first ∈ links.map Link.first <;>
          simp [Stage.link, objections, linkedAt, haccepts, hproduces, hsecond, hfirst]
    · simp [Stage.link, objections, linkedAt, haccepts, hproduces]
  · simp [Stage.link, objections, linkedAt, haccepts]

/-- Without links stages are as they were made. -/
theorem linkedBy_nil (hmade : ∀ stage ∈ made, stage.IsUnlinked) : linkedBy [] made = made := by
  refine List.ext_getElem? fun place => ?_
  rw [linkedBy, List.getElem?_mapIdx]
  cases hstage : made[place]? with
  | none => rfl
  | some stage =>
      obtain ⟨command, verb, hasInput, hasOutput⟩ := stage
      obtain ⟨hinput, houtput⟩ := hmade _ (List.mem_of_getElem? hstage)
      cases hinput
      cases houtput
      rfl

/-- One more link gives its first stage an output and its second an input. -/
theorem linkedBy_concat (hone : made[link.first]? = some one)
    (hother : made[link.second]? = some other) (hdifferent : link.first ≠ link.second) :
    ((linkedBy links made).set link.first
        { linkedAt links link.first one with hasOutput := true }).set link.second
        { linkedAt links link.second other with hasInput := true } =
      linkedBy (links ++ [link]) made := by
  obtain ⟨hfirst, rfl⟩ := List.getElem?_eq_some_iff.mp hone
  obtain ⟨hsecond, rfl⟩ := List.getElem?_eq_some_iff.mp hother
  refine List.ext_getElem? fun place => ?_
  simp only [linkedBy, List.getElem?_set, List.getElem?_mapIdx, List.length_set,
    List.length_mapIdx]
  by_cases hsecondPlace : link.second = place
  · subst hsecondPlace
    simp [hsecond, linkedAt, hdifferent.symm]
  · by_cases hfirstPlace : link.first = place
    · subst hfirstPlace
      simp [hfirst, linkedAt, hdifferent, hdifferent.symm]
    · cases made[place]? <;>
        simp [hfirstPlace, hsecondPlace, linkedAt, Ne.symm hfirstPlace, Ne.symm hsecondPlace]

/-- An attempt fails with the first objection to it, and succeeds where there is none. -/
theorem attach_linkedBy (hone : made[link.first]? = some one)
    (hother : made[link.second]? = some other) (hdifferent : link.first ≠ link.second) :
    attach (linkedBy links made) link.first link.second =
      match objections links link one other with
      | [] => .ok (linkedBy (links ++ [link]) made)
      | error :: _ => .error error := by
  have hfirst : (linkedBy links made)[link.first]? = some (linkedAt links link.first one) := by
    rw [linkedBy, List.getElem?_mapIdx, hone, Option.map_some]
  have hsecond : (linkedBy links made)[link.second]? =
      some (linkedAt links link.second other) := by
    rw [linkedBy, List.getElem?_mapIdx, hother, Option.map_some]
  rw [attach, hfirst, hsecond, ← linkedBy_concat hone hother hdifferent]
  dsimp only
  rw [link_linkedAt]
  cases objections links link one other <;> rfl

/-- What is told of a stage by one side of the links holds of as many stages as there are
links, if they have all their stages on this side and no two the same. -/
theorem countP_linkedBy {holds : Stage → Bool} {side : Link → Nat}
    (htells : ∀ place stage,
      holds (linkedAt links place stage) = decide (place ∈ links.map side))
    (hdistinct : (links.map side).Nodup) (hbound : ∀ link ∈ links, side link < made.length) :
    (linkedBy links made).countP holds = links.length := by
  have hread : (holds ∘ fun pair : Stage × Nat => linkedAt links pair.2 pair.1) =
      (fun place => decide (place ∈ links.map side)) ∘ Prod.snd :=
    funext fun pair => htells pair.2 pair.1
  have hplaces : ((List.range' 0 made.length).filter fun place => place ∈ links.map side).Perm
      (links.map side) := by
    refine (List.perm_ext_iff_of_nodup (.filter _ List.nodup_range') hdistinct).mpr fun place => ?_
    suffices place ∈ links.map side → place < made.length by simpa [List.mem_range'_1]
    rintro hplace
    obtain ⟨link, hlink, rfl⟩ := List.mem_map.mp hplace
    exact hbound link hlink
  rw [linkedBy, List.mapIdx_eq_zipIdx_map, List.countP_map, hread, ← List.countP_map,
    List.zipIdx_map_snd, List.countP_eq_length_filter, hplaces.length_eq, List.length_map]

end Stage

namespace Linking

open Stage

variable {made : List Stage} {attempts : List Link} {linking : Linking} {link : Link}

/-- A matching of predecessors with successors, and the stages that it has linked. -/
structure Matches (made : List Stage) (linking : Linking) : Prop where
  stages : linking.stages = linkedBy linking.links made
  fits : ∀ link ∈ linking.links, link.Fits made
  firsts : (linking.links.map Link.first).Nodup
  seconds : (linking.links.map Link.second).Nodup

/-- An attempt that succeeds joins two stages that were free. -/
theorem Matches.attempt (h : Matches made linking) (hfits : link.Fits made) :
    Matches made (linking.attempt link) := by
  obtain ⟨one, hone⟩ : ∃ one, made[link.first]? = some one :=
    ⟨_, List.getElem?_eq_getElem hfits.first⟩
  obtain ⟨other, hother⟩ : ∃ other, made[link.second]? = some other :=
    ⟨_, List.getElem?_eq_getElem hfits.second⟩
  rw [Linking.attempt, h.stages, attach_linkedBy hone hother hfits.different]
  cases hobjections : objections linking.links link one other with
  | cons error more => exact h
  | nil =>
      obtain ⟨-, -, hsecond, hfirst⟩ := objections_eq_nil_iff.mp hobjections
      refine ⟨rfl, ?_, ?_, ?_⟩
      · intro one hone
        rcases List.mem_append.mp hone with hold | hnew
        · exact h.fits one hold
        · exact List.mem_singleton.mp hnew ▸ hfits
      · rw [List.map_append]
        exact h.firsts.append (List.nodup_singleton _) (by simpa using hfirst)
      · rw [List.map_append]
        exact h.seconds.append (List.nodup_singleton _) (by simpa using hsecond)

private theorem matches_ofAttempts (hmade : ∀ stage ∈ made, stage.IsUnlinked)
    (hfits : ∀ link ∈ attempts, link.Fits made) : Matches made (ofAttempts made attempts) := by
  induction attempts using List.reverseRecOn with
  | nil => exact ⟨(linkedBy_nil hmade).symm, by simp [ofAttempts], .nil, .nil⟩
  | append_singleton earlier link ih =>
      rw [ofAttempts, List.foldl_append]
      exact (ih fun one hone => hfits one (List.mem_append_left _ hone)).attempt
        (hfits link (by simp))

/-- A linked list has an input and an output for each of the links. -/
theorem Matches.counts (h : Matches made linking) :
    linking.stages.countP Stage.hasInput = linking.links.length ∧
      linking.stages.countP Stage.hasOutput = linking.links.length := by
  rw [h.stages]
  exact ⟨countP_linkedBy (fun _ _ => rfl) h.seconds fun link hlink => (h.fits link hlink).second,
    countP_linkedBy (fun _ _ => rfl) h.firsts fun link hlink => (h.fits link hlink).first⟩

/-- After any attempts the stages are linked by the links that were made, these are a
matching, and there are as many inputs as outputs. The next attempt succeeds exactly where
both verbs and both stages allow it, and fails with the first objection otherwise. -/
theorem attempts_accounted (hmade : ∀ stage ∈ made, stage.IsUnlinked)
    (hfits : ∀ link ∈ attempts, link.Fits made) :
    let linking := ofAttempts made attempts
    linking.stages = linkedBy linking.links made ∧
    (linking.links.map Link.first).Nodup ∧ (linking.links.map Link.second).Nodup ∧
    linking.stages.countP Stage.hasInput = linking.links.length ∧
    linking.stages.countP Stage.hasOutput = linking.links.length ∧
    ∀ link one other, made[link.first]? = some one → made[link.second]? = some other →
      link.first ≠ link.second →
      ((∃ linked, attach linking.stages link.first link.second = .ok linked) ↔
        other.verb.acceptsInput = true ∧ one.verb.producesOutput = true ∧
          link.second ∉ linking.links.map Link.second ∧
          link.first ∉ linking.links.map Link.first) ∧
      attach linking.stages link.first link.second =
        match objections linking.links link one other with
        | [] => .ok (linkedBy (linking.links ++ [link]) made)
        | error :: _ => .error error := by
  have hmatches := matches_ofAttempts hmade hfits
  refine ⟨hmatches.stages, hmatches.firsts, hmatches.seconds, hmatches.counts.1,
    hmatches.counts.2, fun link one other hone hother hdifferent => ?_⟩
  rw [hmatches.stages, attach_linkedBy hone hother hdifferent, ← objections_eq_nil_iff]
  refine ⟨?_, rfl⟩
  cases objections _ link one other <;> simp

/-- A second successor is refused, and so is a verb that writes no lines. -/
theorem attempts_accounted_sample :
    let made : List Stage :=
      [{ command := "ls".toList, verb := .ls }, { command := "wc".toList, verb := .wc },
        { command := "print".toList, verb := .print }]
    let linking := ofAttempts made [⟨0, 1⟩, ⟨0, 2⟩, ⟨2, 1⟩]
    linking.links = [⟨0, 1⟩] ∧ linking.stages = linkedBy [⟨0, 1⟩] made ∧
      attach linking.stages 2 1 = .error (.cannotHaveOutput "print".toList) := by
  intro made linking
  have hmade : ∀ stage ∈ made, stage.IsUnlinked := by decide
  have hfits : ∀ link ∈ [⟨0, 1⟩, ⟨0, 2⟩, ⟨2, 1⟩], Link.Fits link made := by decide
  obtain ⟨hstages, -, -, -, -, hnext⟩ := attempts_accounted hmade hfits
  exact ⟨by decide, hstages, (hnext ⟨2, 1⟩ _ _ rfl rfl (by decide)).2⟩

end Linking

end LineShell
