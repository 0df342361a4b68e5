import LineShell.Text

/-!
Numbers in text: the value of a row of digits in any base up to sixteen, and
the numbers that a user may type to name a job.
-/

namespace LineShell.Text

/-- The value of a character as a digit in some base up to sixteen. -/
def digitValue? (base : Nat) (c : Char) : Option Nat :=
  let n := c.toNat
  let value :=
    if 0x30 ≤ n ∧ n ≤ 0x39 then n - 0x30
    else if 0x41 ≤ n ∧ n ≤ 0x46 then n - 0x41 + 10
    else if 0x61 ≤ n ∧ n ≤ 0x66 then n - 0x61 + 10
    else base
  if value < base then some value else none

def isDigitIn (base : Nat) (c : Char) : Bool :=
  (digitValue? base c).isSome

/-- The value of a row of digits, read from the left onto a value. -/
def digitsOnto (base : Nat) : Nat → Text → Option Nat
  | value, [] => some value
  | value, c :: rest =>
    match digitValue? base c with
    | some digit => digitsOnto base (value * base + digit) rest
    | none => none

def digits? (base : Nat) : Text → Option Nat
  | [] => none
  | text => digitsOnto base 0 text

/-- The bound on the numbers that a user may type: they fit into 64 bits. -/
def countBound : Nat := Nat.pow 2 64

/-- A number as a user types it: an optional plus sign, then digits, with a
value below the bound. -/
def count? (text : Text) : Option Nat :=
  let digits :=
    match text with
    | '+' :: rest => rest
    | _ => text
  match digits? 10 digits with
  | some value => if value < countBound then some value else none
  | none => none

example : count? "+007".toList = some 7 := by decide
example : count? "+".toList = none := by decide
example : count? "-0".toList = none := by decide
example : count? "18446744073709551615".toList = some 18446744073709551615 := by decide
example : count? "18446744073709551616".toList = none := by decide

end LineShell.Text
