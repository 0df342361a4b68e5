import LineShell.Toml.Item
import LineShell.Toml.Word

/-!
Numbers, dates and times in TOML. Each has to be of the form that the format
lays down and within its range: integers have 64 bits with a sign, a positive
float may not be too large for a double, and dates and times have to be on the
calendar and the clock.
-/

namespace LineShell.Toml

open Reader

def sign : Reader Text := do
  match ← optional (satisfy fun c => c = '+' || c = '-') with
  | some c => pure [c]
  | none => pure []

/-- Digits, with at most one underscore between each two of them. The underscores
are left out. -/
def digits (base : Nat) : Reader Text := do
  let first ← satisfy (Text.isDigitIn base)
  let rest ← many (optional (char '_') *> satisfy (Text.isDigitIn base))
  pure (first :: rest)

def plainDigits : Reader Text :=
  (do char '0'; pure ['0']) <|> digits 10

/-- The bound on the integers without a sign, and on those with one. -/
def integerBound : Nat := Nat.pow 2 63

/-- An integer in another base than ten. It has no sign. -/
def basedInteger (mark : Char) (base : Nat) : Reader Int := do
  char '0'
  char mark
  match Text.digits? base (← digits base) with
  | some value => if value < integerBound then pure value else failure
  | none => failure

def decimalInteger : Reader Int := do
  let sign ← sign
  match Text.digits? 10 (← plainDigits) with
  | some value =>
    if sign = ['-'] then
      if value ≤ integerBound then pure (-value) else failure
    else if value < integerBound then pure value else failure
  | none => failure

/-- The least number that rounds to no finite double: half a step beyond the
largest one. -/
def doubleBound : Nat := Nat.pow 2 1024 - Nat.pow 2 970

/-- Whether a number, given by its decimal digits and an exponent of ten, is too
large for a double. Where its size is far from the bound the number of digits
decides, so no huge power is ever formed. -/
def isTooLarge (digits : Text) (exponent : Int) : Bool :=
  match Text.digits? 10 digits with
  | none => false
  | some value =>
    let size : Int := (Text.ofNat value).length + exponent
    if value = 0 ∨ size < 309 then false
    else if 309 < size then true
    else if 0 ≤ exponent then doubleBound ≤ value * Nat.pow 10 exponent.toNat
    else doubleBound * Nat.pow 10 (-exponent).toNat ≤ value

def exponent : Reader Int := do
  let _ ← satisfy fun c => c = 'e' || c = 'E'
  let sign ← sign
  match Text.digits? 10 (← digits 10) with
  | some value => pure (if sign = ['-'] then -value else value)
  | none => failure

def decimalFloat : Reader Text := do
  let sign ← sign
  let whole ← plainDigits
  let fraction ← optional (char '.' *> digits 10)
  let power ← optional exponent
  if fraction.isNone && power.isNone then failure
  else
    let fraction := fraction.getD []
    if sign ≠ ['-'] && isTooLarge (whole ++ fraction) (power.getD 0 - fraction.length) then failure
    else pure (sign ++ whole ++ '.' :: fraction)

def specialFloat : Reader Text := do
  let sign ← sign
  let name ← (do word "inf".toList; pure "inf".toList) <|> (do word "nan".toList; pure "nan".toList)
  pure (sign ++ name)

/-- So many digits whose value lies between two bounds. -/
def field (count low high : Nat) : Reader Nat := do
  match Text.digits? 10 (← exactly (Text.isDigitIn 10) count) with
  | some value => if low ≤ value ∧ value ≤ high then pure value else failure
  | none => failure

def isLeapYear (year : Nat) : Bool :=
  year % 4 = 0 && (year % 100 ≠ 0 || year % 400 = 0)

def daysIn (year month : Nat) : Nat :=
  if month = 2 then (if isLeapYear year then 29 else 28)
  else if month = 4 ∨ month = 6 ∨ month = 9 ∨ month = 11 then 30
  else 31

def date : Reader Unit := do
  let year ← field 4 0 9999
  char '-'
  let month ← field 2 1 12
  char '-'
  let _ ← field 2 1 (daysIn year month)

/-- A time of the day, with a leap second and parts of a second allowed. -/
def time : Reader Unit := do
  let _ ← field 2 0 23
  char ':'
  let _ ← field 2 0 59
  char ':'
  let _ ← field 2 0 60
  let _ ← optional (char '.' *> run1 (Text.isDigitIn 10))

def zone : Reader Unit :=
  (do let _ ← satisfy fun c => c = 'Z' || c = 'z') <|>
  (do
    let _ ← satisfy fun c => c = '+' || c = '-'
    let _ ← field 2 0 23
    char ':'
    let _ ← field 2 0 59)

def spelled (reader : Reader Unit) : Reader Text := fun text =>
  (reader text).map fun (_, rest) => (text.take (text.length - rest.length), rest)

def moment : Reader Text :=
  spelled <|
    (do
      date
      let _ ← optional (do
        let _ ← satisfy fun c => c = 'T' || c = 't' || c = ' '
        time
        let _ ← optional zone)) <|>
    time

def number : Reader Item :=
  (Item.moment <$> moment) <|>
  (Item.float <$> decimalFloat) <|>
  (Item.float <$> specialFloat) <|>
  (Item.integer <$> basedInteger 'x' 16) <|>
  (Item.integer <$> basedInteger 'o' 8) <|>
  (Item.integer <$> basedInteger 'b' 2) <|>
  (Item.integer <$> decimalInteger)

end LineShell.Toml
