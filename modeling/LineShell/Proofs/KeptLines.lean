import LineShell.Proofs.BenchedEnds
import LineShell.Proofs.DecodedText
import LineShell.Proofs.Slots
import LineShell.Proofs.TextLines

/-!
Lines that go through a file. A redirect puts each line into its file with a line feed
behind it, and `cat` takes the file apart again at its line feeds, whatever bytes are in
it. A line that was written comes back as it was, but for one carriage return at its end,
which `cat` takes for a part of the line's end.
-/

namespace LineShell

namespace FileTree

/-- A path to a file that is empty and can be written to, or is yet to be made and can
be. -/
def IsFresh (tree : FileTree) (path : Text) : Prop :=
  ∃ place, tree.slot? path = some place ∧
    (tree.node? place = none ∧ tree.access place = .full ∨
      tree.node? place = some (.file []) ∧ tree.access place ≠ .read)

variable {tree : FileTree} {path : Text}

/-- What is written to a fresh file is what is read from it. -/
theorem IsFresh.read?_append (h : tree.IsFresh path) :
    ∃ files place, tree.openFile? path = some (files, place) ∧
      ∀ bytes, (files.append place bytes).read? path = some bytes := by
  obtain ⟨place, hslot, hempty⟩ := h
  obtain ⟨hroot, hopen, hend⟩ := atEnd_of_slot? hslot
  have hopened : tree.openFile? path =
      some (if tree.node? place = none then tree.insert place (.file []) else tree, place) := by
    rw [openFile?_of_slot? hslot, if_neg]
    rcases hempty with ⟨-, hfull⟩ | ⟨hfile, hallowed⟩
    · simp [hfull]
    · simp [hfile, hallowed]
  refine ⟨_, place, hopened, fun bytes => ?_⟩
  have hfiles : (if tree.node? place = none then tree.insert place (.file []) else tree).append
      place bytes = tree.insert place (.file bytes) := by
    rcases hempty with ⟨hnone, -⟩ | ⟨hfile, -⟩
    · rw [if_pos hnone, append_file hroot, List.nil_append]
    · rw [if_neg (by simp [hfile]), append, hfile]
      rfl
  have halike : Alike (· = place) tree (tree.insert place (.file bytes)) := by
    refine ⟨rfl, rfl, fun entry hentry => ?_, ?_, ?_⟩
    · rw [node?_insert hroot, if_neg (Ne.symm hentry)]
    · rintro _ rfl
      exact hopen
    · rintro _ rfl
      exact .inr ⟨bytes, by rw [node?_insert hroot, if_pos rfl]⟩
  rw [hfiles, read?, halike.atEnd rfl hend, atEnd, node?_insert hroot, if_pos rfl]

end FileTree

namespace Bench

variable {world : World} {path : Text} {lines : List Text}

/-- Lines without a line feed that a redirect has written to a fresh file are what `cat`
finds there, each without the carriage return that it may have ended in; so they are the
same lines exactly where none ended in one. And of any file `cat` sends as many lines as
its text has line feeds, and one more where there is something behind the last of them,
and no line feed. -/
theorem lines_kept_in_file (hplain : ∀ line ∈ lines, '\n' ∉ line)
    (hfresh : world.files.IsFresh path) :
    (∃ handlings bench, (start (.redirect path) world).follow handlings = some bench ∧
      bench.fed = lines ∧ bench.isFed = false) ∧
    (∀ handlings bench, (start (.redirect path) world).follow handlings = some bench →
      bench.fed = lines → bench.isFed = false →
        bench.poll.2 = (if bench.hasReturned then .gone else .returned .completed) ∧
        ∀ more later, (start (.cat path) bench.poll.1.world).follow more = some later →
          later.isHeard = true →
            later.poll.2 = (if later.hasReturned then .gone else .returned .completed) ∧
            later.poll.1.emitted = lines.map Text.dropReturn ∧
            (later.poll.1.emitted = lines ↔ ∀ line ∈ lines, line.getLast? ≠ some '\r')) ∧
    ∀ world path content, world.files.read? path = some content →
      ∀ handlings bench, (start (.cat path) world).follow handlings = some bench →
        bench.isHeard = true →
          bench.poll.1.emitted.length = (Text.decode content).count '\n' +
            (if Text.decode content ≠ [] ∧ (Text.decode content).getLast? ≠ some '\n' then 1
              else 0) ∧
          ∀ line ∈ bench.poll.1.emitted, '\n' ∉ line := by
  refine ⟨⟨_, feed_all rfl world lines⟩, ?_, ?_⟩
  · rintro handlings bench hwrite rfl hover
    obtain ⟨hworld, hreturned⟩ := poll_sink rfl hwrite hover
    obtain ⟨files, place, hopen, hread⟩ := hfresh.read?_append
    rw [Verb.effect_redirect hopen] at hworld
    refine ⟨hreturned, fun more later hcat hheard => ?_⟩
    obtain ⟨hemitted, hended⟩ := poll_source rfl hcat hheard
    have hlines : later.poll.1.emitted = bench.fed.map Text.dropReturn := by
      rw [hemitted, hworld, Verb.reads, World.fileLines]
      simp only [hread, Text.decode_encode, Text.lines_unlines hplain]
    exact ⟨hended, hlines, by rw [hlines, Text.map_dropReturn_eq_self_iff]⟩
  · intro world path content hread handlings bench hcat hheard
    obtain ⟨hemitted, -⟩ := poll_source rfl hcat hheard
    have hlines : bench.poll.1.emitted = Text.lines (Text.decode content) := by
      rw [hemitted, Verb.reads, World.fileLines, hread]
    rw [hlines]
    exact ⟨Text.length_lines _, fun _ => Text.notMem_of_mem_lines⟩

theorem lines_kept_in_file_sample :
    FileTree.empty.IsFresh "/f".toList ∧
      ∃ handlings bench,
        (start (.redirect "/f".toList)
            { files := FileTree.empty, directory := "/".toList }).follow handlings = some bench ∧
          bench.fed = ["a\r".toList, [], "b".toList] ∧ bench.isFed = false ∧
          (start (.cat "/f".toList) bench.poll.1.world).poll.1.emitted =
            ["a".toList, [], "b".toList] := by
  have hfresh : FileTree.empty.IsFresh "/f".toList :=
    ⟨["f".toList], by decide +kernel, .inl ⟨by decide +kernel, rfl⟩⟩
  have hplain : ∀ line ∈ ["a\r".toList, [], "b".toList], '\n' ∉ line := by decide
  obtain ⟨⟨handlings, bench, hwrite, hfed, hover⟩, hback, -⟩ :=
    @lines_kept_in_file { files := FileTree.empty, directory := "/".toList } _ _ hplain hfresh
  obtain ⟨-, hcat⟩ := hback handlings bench hwrite hfed hover
  obtain ⟨-, hlines, -⟩ := hcat [] _ rfl rfl
  refine ⟨hfresh, handlings, bench, hwrite, hfed, hover, ?_⟩
  rw [hlines]
  decide

end Bench

end LineShell
