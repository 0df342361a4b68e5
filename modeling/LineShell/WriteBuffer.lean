import LineShell.Text.Utf8

/-!
Bytes on their way to a file. A writer holds bytes back until they fill its
buffer, so a file that is being written to lags behind; what is held back when
the writer is given up never reaches the file.
-/

namespace LineShell.WriteBuffer

def capacity : Nat := 8192

/-- Takes some bytes, behind those that are held back. The answer is what goes to
the file now and what is held back from here on: a buffer that has too little
room left is emptied first, and bytes that would fill it alone pass it by. -/
def put (held bytes : Bytes) : Bytes × Bytes :=
  let (written, held) :=
    if capacity < held.length + bytes.length then (held, []) else ([], held)
  if capacity ≤ bytes.length then (written ++ bytes, held) else (written, held ++ bytes)

/-- Takes a line, and then the line feed that ends it. -/
def putLine (held : Bytes) (line : Text) : Bytes × Bytes :=
  let (first, held) := put held (Text.encode line)
  let (second, held) := put held (Text.encode ['\n'])
  (first ++ second, held)

theorem put_append (held bytes : Bytes) :
    (put held bytes).1 ++ (put held bytes).2 = held ++ bytes := by
  by_cases hroom : capacity < held.length + bytes.length
  · by_cases hlong : capacity ≤ bytes.length <;> simp [put, hroom, hlong]
  · by_cases hlong : capacity ≤ bytes.length
    · have hheld : held = [] := List.eq_nil_of_length_eq_zero (by omega)
      simp [put, hheld, hlong]
    · simp [put, hroom, hlong]

/-- The bytes of a line follow those that were held back. -/
theorem putLine_append (held : Bytes) (line : Text) :
    (putLine held line).1 ++ (putLine held line).2 = held ++ Text.encode (line ++ ['\n']) := by
  have hline := put_append held (Text.encode line)
  have hfeed := put_append (put held (Text.encode line)).2 (Text.encode ['\n'])
  calc
    (putLine held line).1 ++ (putLine held line).2
        = (put held (Text.encode line)).1 ++
          ((put (put held (Text.encode line)).2 (Text.encode ['\n'])).1 ++
            (put (put held (Text.encode line)).2 (Text.encode ['\n'])).2) := by
          simp [putLine]
    _ = held ++ Text.encode (line ++ ['\n']) := by
          rw [hfeed, ← List.append_assoc, hline]
          simp [Text.encode]

end LineShell.WriteBuffer
