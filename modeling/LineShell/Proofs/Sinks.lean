import LineShell.Proofs.ExpectedLines
import LineShell.Proofs.Openings

/-!
What the last worker of a pipeline does to the world. No other worker changes
anything there, so the world after any number of steps is the one from before
the run with the lines in it that the last worker has written so far; of a file
the last bytes may still be held back.
-/

namespace LineShell

/-- The reader that a verb begins with, and the world when it has begun. -/
def Verb.opening (world : World) : Verb → Reader × World
  | .print => (.console, world)
  | .redirect path =>
    match world.files.openFile? path with
    | some (files, place) => (.file place [], { world with files })
    | none => (.nowhere, world)
  | .cd change => (.nowhere, world.changeDirectory change)
  | _ => (.nowhere, world)

namespace Reader

/-- Writes some lines, one after the other. -/
def writeAll (state : Reader × World) (lines : List Text) : Reader × World :=
  lines.foldl (fun (reader, world) line => Body.writeLine world line reader) state

/-- The world when everything has been written that the reader holds back. -/
def drain (world : World) : Reader → World
  | .file place held => world.append place held
  | _ => world

/-- A worker that reads lines in order to write them with this reader. -/
inductive KeptBy (reader : Reader) : Worker → Prop
  | reading : KeptBy reader (.running (.reading reader))
  | receiving : KeptBy reader (.running (.receiving reader))
  | waiting : KeptBy reader (.running (.waiting reader))
  | writing (line : Text) : KeptBy reader (.running (.writing line reader))
  | storing {place : Place} {held : Bytes} (file : reader = .file place held) :
      KeptBy reader (.running (.storing place held))

end Reader

/-- How a worker ends or has ended, once its body has. -/
def Worker.outcome? : Worker → Option Exit
  | .running (.ended ending) => some ending.exit
  | .running _ => none
  | .leaving exit | .gone exit => some exit

/-- What a last worker has made of the world that was there at the start, when it
has written these lines. -/
inductive Writes (origin : World) (verb : Verb) : Worker → List Text → World → Prop
  | fresh : Writes origin verb (.running (.fresh verb)) [] origin
  | kept {worker : Worker} {lines : List Text} {reader : Reader} {world : World}
      (keeps : reader.KeptBy worker)
      (written : Reader.writeAll (verb.opening origin) lines = (reader, world))
      (plain : ∀ filter, reader ≠ .filter filter) :
      Writes origin verb worker lines world
  | finished {worker : Worker} {lines : List Text} {reader : Reader} {world : World}
      (outcome : worker.outcome? = some .finished)
      (written : Reader.writeAll (verb.opening origin) lines = (reader, world)) :
      Writes origin verb worker lines (reader.drain world)
  | cancelled {worker : Worker} {lines : List Text} {reader : Reader} {world : World}
      (outcome : worker.outcome? = some .cancelled)
      (written : Reader.writeAll (verb.opening origin) lines = (reader, world)) :
      Writes origin verb worker lines world

/-- A world that a source may meet when it begins: the last worker has made it of the one
from before the run, when no line had come to it. -/
def Met (origin : World) (verb : Verb) (world : World) : Prop :=
  ∃ worker, Writes origin verb worker [] world

private theorem Worker.outcome?_of_step {worker next : Worker} {wiring after : Wiring}
    {world later : World} {exit : Exit}
    (h : worker.step wiring world = some (next, after, later))
    (houtcome : worker.outcome? = some exit) :
    next.outcome? = some exit ∧ later = world ∧ worker.tells wiring = [] := by
  cases goes_of_step h with
  | @work body ahead _ _ hbody =>
      cases body with
      | ended ending => cases hbody
      | _ => cases houtcome
  | giveUp => exact ⟨houtcome, rfl, rfl⟩
  | @mark ending hown =>
      obtain rfl : ending.exit = exit := Option.some.inj houtcome
      refine ⟨congrArg some hown.symm, rfl, ?_⟩
      cases ending <;> rfl
  | leave => exact ⟨houtcome, rfl, rfl⟩

namespace Reader

theorem writeAll_concat (state : Reader × World) (lines : List Text) (line : Text) :
    writeAll state (lines ++ [line]) =
      Body.writeLine (writeAll state lines).2 line (writeAll state lines).1 := by
  simp [writeAll]

/-- Where the lines have ended, what is held back is still to be written. -/
theorem writes_conclude {origin world : World} {verb : Verb} {lines : List Text}
    {reader : Reader} (hplain : ∀ filter, reader ≠ .filter filter)
    (hwritten : writeAll (verb.opening origin) lines = (reader, world)) :
    Writes origin verb (.running (Body.conclude reader)) lines world := by
  cases reader with
  | filter filter => exact absurd rfl (hplain filter)
  | console => exact .finished rfl hwritten
  | nowhere => exact .finished rfl hwritten
  | file place held => exact .kept (.storing rfl) hwritten hplain

private theorem writes_start (origin : World) {verb : Verb} (h : verb.producesOutput = false) :
    Writes origin verb (.running (Body.start origin verb).1) [] (Body.start origin verb).2 := by
  cases verb with
  | print => exact .kept .reading rfl (by simp)
  | cd change => exact .finished rfl rfl
  | exit => exact .finished rfl rfl
  | redirect path =>
      cases hopen : origin.files.openFile? path with
      | none =>
          have hwritten : writeAll (Verb.opening origin (.redirect path)) [] =
              (.nowhere, origin) := by simp [writeAll, Verb.opening, hopen]
          simp only [Body.start, hopen]
          exact .kept .reading hwritten (by simp)
      | some opened =>
          have hwritten : writeAll (Verb.opening origin (.redirect path)) [] =
              (.file opened.2 [], { origin with files := opened.1 }) := by
            simp [writeAll, Verb.opening, hopen]
          simp only [Body.start, hopen]
          exact .kept .reading hwritten (by simp)
  | _ => cases h

end Reader

/-- With every step a last worker writes the line that it hands on. -/
theorem Writes.step {origin world later : World} {verb : Verb} {worker next : Worker}
    {lines : List Text} {wiring after : Wiring} (h : Writes origin verb worker lines world)
    (hverb : verb.producesOutput = false)
    (hstep : worker.step wiring world = some (next, after, later)) :
    Writes origin verb next (lines ++ worker.tells wiring) later := by
  cases h with
  | fresh =>
      cases Worker.goes_of_step hstep with
      | work hbody =>
          cases hbody with
          | begin => exact Reader.writes_start origin hverb
  | finished houtcome hwritten =>
      obtain ⟨hnext, rfl, htells⟩ := Worker.outcome?_of_step hstep houtcome
      rw [htells, List.append_nil]
      exact .finished hnext hwritten
  | cancelled houtcome hwritten =>
      obtain ⟨hnext, rfl, htells⟩ := Worker.outcome?_of_step hstep houtcome
      rw [htells, List.append_nil]
      exact .cancelled hnext hwritten
  | @kept _ _ reader _ hkeeps hwritten hplain =>
      -- Only a step that writes hands a line on, and it alone changes the world.
      cases Worker.goes_of_step hstep with
      | work hbody =>
          cases hbody with
          | begin verb => cases hkeeps
          | shut reader | finish reader =>
              cases hkeeps
              exact (List.append_nil lines).symm ▸ Reader.writes_conclude hplain hwritten
          | stopReading reader | stopWaiting reader =>
              cases hkeeps
              exact (List.append_nil lines).symm ▸ .cancelled rfl hwritten
          | look reader | wake reader =>
              cases hkeeps
              exact (List.append_nil lines).symm ▸ .kept .receiving hwritten hplain
          | wait reader =>
              cases hkeeps
              exact (List.append_nil lines).symm ▸ .kept .waiting hwritten hplain
          | take reader =>
              cases hkeeps
              rw [show (Worker.running (.receiving reader)).tells wiring = [] from rfl,
                List.append_nil]
              cases reader with
              | filter filter => exact absurd rfl (hplain filter)
              | _ => exact .kept (.writing _) hwritten hplain
          | write line reader =>
              cases hkeeps
              have hafter : Reader.writeAll (verb.opening origin) (lines ++ [line]) =
                  Body.writeLine world line reader := by
                rw [Reader.writeAll_concat, hwritten]
              refine .kept .reading hafter ?_
              cases reader with
              | filter filter => exact absurd rfl (hplain filter)
              | _ => simp [Body.writeLine]
          | store place held =>
              cases hkeeps with
              | storing hfile =>
                  obtain rfl := hfile
                  exact (List.append_nil lines).symm ▸ .finished rfl hwritten
          | _ => cases hkeeps
      | _ => cases hkeeps

/-! What the lines come to that have been written. -/

private theorem World.append_append (world : World) (place : Place) (first second : Bytes) :
    (world.append place first).append place second = world.append place (first ++ second) := by
  simp [append, FileTree.append_append]

private theorem World.append_nil (world : World) (place : Place) :
    world.append place [] = world := by
  simp [append, FileTree.append_nil]

namespace Reader

private theorem writeAll_console (world : World) (lines : List Text) :
    writeAll (.console, world) lines =
      (.console, { world with console := world.console ++ lines }) := by
  induction lines generalizing world with
  | nil => simp [writeAll]
  | cons line rest ih =>
      calc
        writeAll (.console, world) (line :: rest)
            = writeAll (.console, world.print line) rest := rfl
        _ = (.console, { world with console := world.console ++ line :: rest }) := by
              rw [ih]
              simp [World.print]

private theorem writeAll_nowhere (world : World) (lines : List Text) :
    writeAll (.nowhere, world) lines = (.nowhere, world) := by
  induction lines with
  | nil => rfl
  | cons line rest ih => exact ih

/-- The bytes in the file and those that are held back are the lines, each with its
line feed. -/
theorem writeAll_file (world : World) (place : Place) (held : Bytes) (lines : List Text) :
    ∃ written left, writeAll (.file place held, world) lines =
        (.file place left, world.append place written) ∧
      written ++ left = held ++ Text.encode (Text.unlines lines) := by
  induction lines generalizing world held with
  | nil =>
      refine ⟨[], held, ?_, ?_⟩
      · rw [World.append_nil]
        rfl
      · simp [Text.unlines, Text.encode]
  | cons line rest ih =>
      have hput := WriteBuffer.putLine_append held line
      obtain ⟨written, left, hrest, hbytes⟩ :=
        ih (world.append place (WriteBuffer.putLine held line).1) (WriteBuffer.putLine held line).2
      refine ⟨(WriteBuffer.putLine held line).1 ++ written, left, ?_, ?_⟩
      · rw [World.append_append] at hrest
        exact hrest
      · calc
          (WriteBuffer.putLine held line).1 ++ written ++ left
              = (WriteBuffer.putLine held line).1 ++ (WriteBuffer.putLine held line).2 ++
                  Text.encode (Text.unlines rest) := by
                rw [List.append_assoc, hbytes, List.append_assoc]
          _ = held ++ Text.encode (Text.unlines (line :: rest)) := by
                rw [hput]
                simp [Text.unlines, Text.encode]

end Reader

/-- The world when a last worker has written all of some lines. -/
def Verb.effect (verb : Verb) (world : World) (lines : List Text) : World :=
  let (reader, later) := Reader.writeAll (verb.opening world) lines
  reader.drain later

theorem Verb.effect_redirect {world : World} {path : Text} {files : FileTree} {place : Place}
    (h : world.files.openFile? path = some (files, place)) (lines : List Text) :
    (Verb.redirect path).effect world lines =
      { world with files := files.append place (Text.encode (Text.unlines lines)) } := by
  obtain ⟨written, left, hwrite, hbytes⟩ :=
    Reader.writeAll_file { world with files } place [] lines
  rw [List.nil_append] at hbytes
  simp only [effect, opening, h, hwrite, Reader.drain, World.append_append, hbytes]
  rfl

theorem Verb.effect_cd (world : World) (change : DirectoryChange) (lines : List Text) :
    (Verb.cd change).effect world lines = world.changeDirectory change := by
  simp only [effect, opening, Reader.writeAll_nowhere, Reader.drain]

theorem Verb.effect_exit (world : World) (lines : List Text) :
    Verb.exit.effect world lines = world := by
  simp only [effect, opening, Reader.writeAll_nowhere, Reader.drain]

namespace Writes

variable {origin world : World} {verb : Verb} {worker : Worker} {lines : List Text}

/-- A last worker that has come to an end of its own has written all its lines. -/
theorem world_of_finished (h : Writes origin verb worker lines world)
    (hfinished : worker.outcome? = some .finished) : world = verb.effect origin lines := by
  cases h with
  | fresh => cases hfinished
  | kept hkeeps => cases hkeeps <;> cases hfinished
  | finished _ hwritten => rw [Verb.effect, hwritten]
  | cancelled hcancelled => rw [hcancelled] at hfinished; cases hfinished

/-- The lines have all been taken by the reader, and perhaps it holds nothing back
any more. -/
theorem world_cases (h : Writes origin verb worker lines world) :
    lines = [] ∧ world = origin ∨ ∃ reader before,
      Reader.writeAll (verb.opening origin) lines = (reader, before) ∧
        (world = before ∨ world = reader.drain before) := by
  cases h with
  | fresh => exact .inl ⟨rfl, rfl⟩
  | kept _ hwritten => exact .inr ⟨_, _, hwritten, .inl rfl⟩
  | cancelled _ hwritten => exact .inr ⟨_, _, hwritten, .inl rfl⟩
  | finished _ hwritten => exact .inr ⟨_, _, hwritten, .inr rfl⟩

/-- What is on the console are the lines that were written. -/
theorem world_of_print (h : Writes origin .print worker lines world) :
    world = { origin with console := origin.console ++ lines } := by
  rcases h.world_cases with ⟨rfl, rfl⟩ | ⟨reader, before, hwritten, hworld⟩
  · simp
  · rw [Verb.opening, Reader.writeAll_console] at hwritten
    obtain ⟨rfl, rfl⟩ := Prod.mk.inj hwritten
    rcases hworld with rfl | rfl <;> rfl

/-- What is in a redirect's file is a beginning of the lines that were written,
each with its line feed. -/
theorem world_of_redirect {path : Text} (h : Writes origin (.redirect path) worker lines world) :
    world = origin ∨ ∃ files place bytes, origin.files.openFile? path = some (files, place) ∧
      world = { origin with files := files.append place bytes } ∧
      bytes <+: Text.encode (Text.unlines lines) := by
  rcases h.world_cases with ⟨-, rfl⟩ | ⟨reader, before, hwritten, hworld⟩
  · exact .inl rfl
  · cases hopen : origin.files.openFile? path with
    | none =>
        left
        simp only [Verb.opening, hopen, Reader.writeAll_nowhere] at hwritten
        obtain ⟨rfl, rfl⟩ := Prod.mk.inj hwritten
        rcases hworld with rfl | rfl <;> rfl
    | some opened =>
        obtain ⟨files, place⟩ := opened
        obtain ⟨written, left, hall, hbytes⟩ :=
          Reader.writeAll_file { origin with files } place [] lines
        rw [List.nil_append] at hbytes
        simp only [Verb.opening, hopen, hall] at hwritten
        obtain ⟨rfl, rfl⟩ := Prod.mk.inj hwritten
        rcases hworld with rfl | rfl
        · exact .inr ⟨files, place, written, rfl, rfl, hbytes ▸ List.prefix_append written left⟩
        · refine .inr ⟨files, place, written ++ left, rfl, ?_, hbytes ▸ List.prefix_rfl⟩
          exact World.append_append { origin with files } place written left

/-- Once the destination has been opened, what was written stands behind what was in it
before; or the world stays as it is. -/
theorem world_of_receives {path : Text} (h : Writes origin (.redirect path) worker lines world)
    (hkept : origin.files.isFile path = true → origin.files.IsKept path) :
    world = origin ∨ ∃ place before bytes, origin.files.Receives path place before ∧
      world = { origin with files := origin.files.insert place (.file (before ++ bytes)) } ∧
      bytes <+: Text.encode (Text.unlines lines) := by
  rcases h.world_of_redirect with rfl | ⟨files, place, bytes, hopen, rfl, hbytes⟩
  · exact .inl rfl
  · rcases FileTree.openFile?_cases hkept with
      ⟨hnone, -⟩ | ⟨opened, target, before, hreceives, hsome, happend⟩ | ⟨device, hdevice, hsome⟩
    · rw [hnone] at hopen
      cases hopen
    · obtain ⟨rfl, rfl⟩ : opened = files ∧ target = place := by
        simpa [hsome] using hopen
      exact .inr ⟨target, before, bytes, hreceives, by rw [happend], hbytes⟩
    · left
      obtain ⟨rfl, rfl⟩ : origin.files = files ∧ device = place := by
        simpa [hsome] using hopen
      rw [FileTree.append_device (FileTree.node?_of_found hdevice (by simp)).2]

/-- A solitary verb changes the world when it begins, and at no other time. -/
theorem world_of_solitary (h : Writes origin verb worker lines world)
    (hverb : verb.isSolitary = true) : world = origin ∨ world = verb.effect origin [] := by
  have hopening : (verb.opening origin).1 = .nowhere := by
    cases verb with
    | cd change => rfl
    | exit => rfl
    | _ => cases hverb
  have hall : ∀ lines, Reader.writeAll (verb.opening origin) lines = verb.opening origin := by
    intro lines
    rw [show verb.opening origin = (.nowhere, (verb.opening origin).2) from Prod.ext hopening rfl]
    exact Reader.writeAll_nowhere _ lines
  rcases h.world_cases with ⟨-, rfl⟩ | ⟨reader, before, hwritten, hworld⟩
  · exact .inl rfl
  · right
    rw [hall] at hwritten
    rw [Verb.effect, hall, hwritten]
    obtain rfl : reader = .nowhere := by rw [← hopening, hwritten]
    rcases hworld with rfl | rfl <;> rfl

end Writes

end LineShell
