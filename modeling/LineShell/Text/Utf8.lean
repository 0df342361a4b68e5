import LineShell.Text

/-!
Text as bytes. Encoding is UTF-8. Decoding never fails: it reads the bytes one
by one, and puts one replacement character for every longest run of bytes that
begins a well-formed sequence and does not complete it. A file whose bytes are
not UTF-8 can therefore still be read line by line.
-/

namespace LineShell

abbrev Bytes := List UInt8

namespace Text

def encodeChar (c : Char) : Bytes :=
  let n := c.toNat
  let tail (k : Nat) := UInt8.ofNat (0x80 + k % 64)
  if n < 0x80 then [UInt8.ofNat n]
  else if n < 0x800 then [UInt8.ofNat (0xC0 + n / 64), tail n]
  else if n < 0x10000 then [UInt8.ofNat (0xE0 + n / 4096), tail (n / 64), tail n]
  else [UInt8.ofNat (0xF0 + n / 262144), tail (n / 4096), tail (n / 64), tail n]

def encode (text : Text) : Bytes :=
  text.flatMap encodeChar

/-- The character that stands for bytes which are no character. -/
def replacement : Char := '\uFFFD'

/-- What a decoder has seen of the sequence that it is in. -/
inductive Decoder where
  | ready
  /-- So many bytes are missing, the next of them lies between two bounds, and
  the bytes so far stand for a value. -/
  | within (missing low high value : Nat)
deriving DecidableEq, Repr

/-- Reads the first byte of a sequence. The bounds on the second byte leave
out overlong forms, surrogates, and values beyond the last code point. -/
def Decoder.begin (byte : Nat) : Decoder × Text :=
  if byte < 0x80 then (.ready, [Char.ofNat byte])
  else if byte < 0xC2 then (.ready, [replacement])
  else if byte < 0xE0 then (.within 1 0x80 0xBF (byte - 0xC0), [])
  else if byte = 0xE0 then (.within 2 0xA0 0xBF 0, [])
  else if byte = 0xED then (.within 2 0x80 0x9F 0xD, [])
  else if byte < 0xF0 then (.within 2 0x80 0xBF (byte - 0xE0), [])
  else if byte = 0xF0 then (.within 3 0x90 0xBF 0, [])
  else if byte < 0xF4 then (.within 3 0x80 0xBF (byte - 0xF0), [])
  else if byte = 0xF4 then (.within 3 0x80 0x8F 4, [])
  else (.ready, [replacement])

/-- Reads one byte. A byte that cannot continue the sequence ends it with a
replacement character and begins the next one. -/
def Decoder.next : Decoder → UInt8 → Decoder × Text
  | .ready, byte => begin byte.toNat
  | .within missing low high value, byte =>
    if low ≤ byte.toNat ∧ byte.toNat ≤ high then
      let value := value * 64 + (byte.toNat - 0x80)
      if missing = 1 then (.ready, [Char.ofNat value])
      else (.within (missing - 1) 0x80 0xBF value, [])
    else
      let (decoder, text) := begin byte.toNat
      (decoder, replacement :: text)

/-- Reads the bytes that are left. A sequence that the end cuts short counts as
one replacement character. -/
def Decoder.finish : Decoder → Bytes → Text
  | .ready, [] => []
  | .within .., [] => [replacement]
  | decoder, byte :: bytes =>
    let (decoder, text) := decoder.next byte
    text ++ decoder.finish bytes

def decode (bytes : Bytes) : Text :=
  Decoder.ready.finish bytes

/-- The text of well-formed bytes, and nothing for others: the bytes are well
formed exactly when encoding their text gives them back. -/
def decode? (bytes : Bytes) : Option Text :=
  let text := decode bytes
  if text.encode = bytes then some text else none

example : decode [0x61, 0xFF, 0x62] = ['a', replacement, 'b'] := by decide
example : decode [0xE2, 0x82, 0xAC] = ['€'] := by decide
example : decode [0xE2, 0x82] = [replacement] := by decide
example : decode [0xF0, 0x9F, 0x98, 0x41] = [replacement, 'A'] := by decide
example : decode [0xED, 0xA0, 0x80] = [replacement, replacement, replacement] := by decide
example : encode ['a', 'é', '€', '😀'] =
    [0x61, 0xC3, 0xA9, 0xE2, 0x82, 0xAC, 0xF0, 0x9F, 0x98, 0x80] := by decide

end Text

end LineShell
