import LineShell.Proofs.Refusals

/-!
What is left of a text in its pieces. Put together again they are the text without the
`|` at its very end, but for blank text directly before the first `>` of a segment,
which is dropped. To put them together one has to know which of them stood in the same
segment, since a redirect may also be all of a segment.
-/

namespace LineShell.CommandLine

/-- A text without the `|` at its very end. -/
def dropEndMarks (text : Text) : Text :=
  text.rdropWhile (· == '|')

private theorem dropEndMarks_append_replicate {front : Text} (hlast : front.getLast? ≠ some '|')
    (count : Nat) : dropEndMarks (front ++ List.replicate count '|') = front := by
  induction count with
  | zero =>
      rw [List.replicate_zero, List.append_nil, dropEndMarks, List.rdropWhile_eq_self_iff]
      intro hne hmark
      exact hlast (by rw [List.getLast?_eq_some_getLast hne, beq_iff_eq.mp hmark])
  | succ count ih =>
      rw [List.replicate_succ', ← List.append_assoc, dropEndMarks,
        List.rdropWhile_concat_pos _ _ _ rfl]
      exact ih

theorem Segmented.dropEndMarks {text : Text} {segments : List Text}
    (h : Segmented text segments) : dropEndMarks text = Text.joinWith '|' segments := by
  obtain ⟨count, rfl⟩ := h.rebuilt
  exact dropEndMarks_append_replicate h.last count

/-- The pieces of one segment, and the blank text that was dropped before them. -/
structure Cutting where
  dropped : Text := []
  pieces : List Text

/-- The segment that some pieces were cut from. -/
def Cutting.segment (cutting : Cutting) : Text :=
  cutting.dropped ++ cutting.pieces.flatten

/-- How a segment may have been cut: not at all, or before its first `>`. Only blank text
before that `>` is dropped. -/
inductive Cutting.Proper : Cutting → Prop
  | plain {segment : Text} (free : '>' ∉ segment) : Proper { pieces := [segment] }
  | redirect {before after : Text} (free : '>' ∉ before)
      (filled : Text.allBlank before = false) : Proper { pieces := [before, '>' :: after] }
  | bare {before after : Text} (blank : Text.allBlank before = true) :
      Proper { dropped := before, pieces := ['>' :: after] }

/-- What it is for a text to be cut up whole: there is one cutting for each segment between
its `|`, except for the empty ones at the end. -/
structure CutInto (text : Text) (cuttings : List Cutting) : Prop where
  proper : ∀ cutting ∈ cuttings, cutting.Proper
  segments : ∃ count,
    text.split '|' = cuttings.map Cutting.segment ++ List.replicate count []
  last : (cuttings.map Cutting.segment).getLast? ≠ some []
  rejoined : Text.joinWith '|' (cuttings.map Cutting.segment) = dropEndMarks text
  /-- A segment that is blank is a piece of its own. -/
  blank : ∀ cutting ∈ cuttings, Text.allBlank cutting.segment = true →
    cutting.pieces = [cutting.segment]

private theorem exists_cutting (segment : Text) :
    ∃ cutting : Cutting, cutting.Proper ∧ cutting.segment = segment ∧
      cutting.pieces = piecesOfSegment segment := by
  unfold piecesOfSegment
  split
  · rename_i before redirect hcut
    obtain ⟨rfl, hhead, hfree⟩ := Text.cutFirst_eq_some hcut
    obtain ⟨after, rfl⟩ := List.head?_eq_some_iff.mp hhead
    split
    · rename_i hblank
      exact ⟨_, .bare hblank, by simp [Cutting.segment], rfl⟩
    · rename_i hfilled
      exact ⟨_, .redirect hfree (by simpa using hfilled), by simp [Cutting.segment], rfl⟩
  · rename_i hcut
    exact ⟨_, .plain (Text.cutFirst_eq_none.mp hcut), by simp [Cutting.segment], rfl⟩

private theorem exists_cuttings (segments : List Text) :
    ∃ cuttings : List Cutting, (∀ cutting ∈ cuttings, cutting.Proper) ∧
      cuttings.map Cutting.segment = segments ∧
      cuttings.flatMap Cutting.pieces = segments.flatMap piecesOfSegment := by
  induction segments with
  | nil => exact ⟨[], by simp, rfl, rfl⟩
  | cons segment rest ih =>
      obtain ⟨cutting, hproper, hsegment, hpieces⟩ := exists_cutting segment
      obtain ⟨cuttings, hcuttings, hsegments, hrest⟩ := ih
      exact ⟨cutting :: cuttings, List.forall_mem_cons.mpr ⟨hproper, hcuttings⟩,
        by simp [hsegment, hsegments], by simp [hpieces, hrest]⟩

private theorem not_blank_redirect (before after : Text) :
    Text.allBlank (before ++ '>' :: after) = false := by
  have hmark : Text.isBlank '>' = false := by decide
  simp [Text.allBlank, hmark]

/-- Nothing is cut off a blank segment. -/
theorem Cutting.Proper.pieces_of_blank {cutting : Cutting} (h : cutting.Proper)
    (hblank : Text.allBlank cutting.segment = true) : cutting.pieces = [cutting.segment] := by
  cases h with
  | plain => simp [segment]
  | redirect | bare => simp [segment, not_blank_redirect] at hblank

private theorem Cutting.Proper.mem_pieces {cutting : Cutting} (h : cutting.Proper) {piece : Text}
    (hpiece : piece ∈ cutting.pieces) :
    (∀ c ∈ piece, c ∈ cutting.segment) ∧ ('>' ∉ piece ∨ ∃ after, piece = '>' :: after) := by
  constructor
  · intro c hc
    exact List.mem_append_right _ (List.mem_flatten.mpr ⟨piece, hpiece, hc⟩)
  · cases h with
    | plain hfree =>
        obtain rfl := List.mem_singleton.mp hpiece
        exact .inl hfree
    | redirect hfree =>
        rcases List.mem_pair.mp hpiece with rfl | rfl
        · exact .inl hfree
        · exact .inr ⟨_, rfl⟩
    | bare =>
        obtain rfl := List.mem_singleton.mp hpiece
        exact .inr ⟨_, rfl⟩

private theorem getLast?_segments_ne (text : Text) : (segments text).getLast? ≠ some [] := by
  intro hlast
  rw [segments, List.getLast?_reverse] at hlast
  have hfilled := Text.head?_dropWhile_false hlast
  cases hfilled

private theorem segments_eq_nil_iff {text : Text} : segments text = [] ↔ ∀ c ∈ text, c = '|' := by
  rw [← pieces_eq_nil_iff, pieces, List.flatMap_eq_nil_iff]
  simp only [piecesOfSegment_ne_nil, imp_false, ← List.eq_nil_iff_forall_not_mem]

private theorem joinWith_segments (text : Text) :
    Text.joinWith '|' (segments text) = dropEndMarks text := by
  by_cases hnone : segments text = []
  · have hmarks := segments_eq_nil_iff.mp hnone
    rw [hnone, Text.joinWith, dropEndMarks, eq_comm, List.rdropWhile_eq_nil_iff]
    exact fun c hc => beq_iff_eq.mpr (hmarks c hc)
  · exact (segmented_segments hnone).dropEndMarks.symm

/-- No piece of a text holds a `|`, and one that holds a `>` begins with one. The pieces are
those of the cuttings of its segments. With the pieces of a segment joined directly, the
segments joined by `|`, and the blank text put back that stood directly before the first
`>` of a segment, they give the text without the `|` at its very end. There are no pieces
exactly where the text is nothing but `|`. -/
theorem pieces_rejoined (text : Text) :
    (∀ piece ∈ pieces text, '|' ∉ piece ∧ ('>' ∉ piece ∨ ∃ after, piece = '>' :: after)) ∧
      (∃ cuttings, CutInto text cuttings ∧ pieces text = cuttings.flatMap Cutting.pieces) ∧
      (pieces text = [] ↔ ∀ c ∈ text, c = '|') := by
  obtain ⟨cuttings, hproper, hsegments, hpieces⟩ := exists_cuttings (segments text)
  obtain ⟨count, hsplit⟩ := split_eq_segments_append text
  refine ⟨?_, ⟨cuttings, ?_, hpieces.symm⟩, pieces_eq_nil_iff⟩
  · intro piece hpiece
    rw [pieces, ← hpieces] at hpiece
    obtain ⟨cutting, hcutting, hmem⟩ := List.mem_flatMap.mp hpiece
    obtain ⟨hwithin, hredirect⟩ := (hproper cutting hcutting).mem_pieces hmem
    refine ⟨fun hmark => ?_, hredirect⟩
    have hsegment : cutting.segment ∈ text.split '|' := by
      rw [hsplit, ← hsegments]
      exact List.mem_append_left _ (List.mem_map_of_mem hcutting)
    exact Text.not_mem_of_mem_split hsegment (hwithin _ hmark)
  · exact {
      proper := hproper
      segments := ⟨count, hsegments ▸ hsplit⟩
      last := hsegments ▸ getLast?_segments_ne text
      rejoined := hsegments ▸ joinWith_segments text
      blank := fun cutting hcutting => (hproper cutting hcutting).pieces_of_blank }

/-- A blank segment, one whose redirect has only blank text before it and another mark behind
it, and two marks at the end. -/
theorem pieces_rejoined_sample :
    pieces " |a | >b>c||".toList = [" ", "a ", ">b>c"].map String.toList ∧
      ">b>c".toList ∈ pieces " |a | >b>c||".toList ∧ '|' ∉ ">b>c".toList ∧
      ∃ cuttings, CutInto " |a | >b>c||".toList cuttings ∧
        [" ", "a ", ">b>c"].map String.toList = cuttings.flatMap Cutting.pieces := by
  have hpieces : pieces " |a | >b>c||".toList = [" ", "a ", ">b>c"].map String.toList := by
    decide
  have hmem : ">b>c".toList ∈ pieces " |a | >b>c||".toList := by
    rw [hpieces]
    decide
  obtain ⟨hplain, hcuttings, -⟩ := pieces_rejoined " |a | >b>c||".toList
  rw [hpieces] at hcuttings
  exact ⟨hpieces, hmem, (hplain _ hmem).1, hcuttings⟩

-- The pieces alone do not tell which of them stood in the same segment.
example : pieces "a>b".toList = pieces "a|>b".toList := by decide

end LineShell.CommandLine
