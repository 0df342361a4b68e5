import Mathlib.Data.Nat.Digits.Defs
import LineShell.Text.Number

/-!
Numbers as a user may write them: an optional plus sign and decimal digits, as many as
one likes. Which of them are taken is told by their value alone, so zeros in front of a
number never put it out of reach.
-/

namespace LineShell.Text

/-- What a row of decimal digits stands for, of which the last counts once. -/
def decimal (digits : Text) : Nat :=
  Nat.ofDigits 10 (digits.reverse.map fun c => c.toNat - '0'.toNat)

/-- A number is written with decimal digits alone, or with a plus sign before them. -/
inductive Numeral : Text → Nat → Prop
  | plain {digits : Text} (filled : digits ≠ []) (only : ∀ c ∈ digits, c.isDigit = true) :
      Numeral digits (decimal digits)
  | signed {digits : Text} (filled : digits ≠ []) (only : ∀ c ∈ digits, c.isDigit = true) :
      Numeral ('+' :: digits) (decimal digits)

variable {text digits : Text} {n value : Nat}

private theorem decimal_cons (c : Char) (rest : Text) :
    decimal (c :: rest) = decimal rest + 10 ^ rest.length * (c.toNat - '0'.toNat) := by
  simp [decimal, Nat.ofDigits_append]

private theorem isDigit_iff (c : Char) : c.isDigit = true ↔ 0x30 ≤ c.toNat ∧ c.toNat ≤ 0x39 := by
  simp only [Char.isDigit, Bool.and_eq_true, decide_eq_true_eq, UInt32.le_iff_toNat_le]
  exact Iff.rfl

private theorem digitValue?_ten (c : Char) :
    digitValue? 10 c = if c.isDigit = true then some (c.toNat - '0'.toNat) else none := by
  by_cases hdigit : c.isDigit = true
  · have hrange := (isDigit_iff c).mp hdigit
    have hsmall : c.toNat - 0x30 < 10 := by omega
    simp only [digitValue?, if_pos hrange, if_pos hsmall, if_pos hdigit]
    rfl
  · have hrange := fun h => hdigit ((isDigit_iff c).mpr h)
    simp only [digitValue?, if_neg hrange, if_neg hdigit]
    -- A letter counts ten or more, so in base ten there is no value for it.
    split_ifs <;> first | rfl | omega

private theorem digitsOnto_eq_some_iff :
    digitsOnto 10 value digits = some n ↔
      (∀ c ∈ digits, c.isDigit = true) ∧ n = value * 10 ^ digits.length + decimal digits := by
  induction digits generalizing value with
  | nil =>
      simp only [digitsOnto, Option.some.injEq, List.not_mem_nil, false_implies, implies_true,
        true_and, List.length_nil, pow_zero, mul_one]
      exact eq_comm
  | cons c rest ih =>
      rw [digitsOnto, digitValue?_ten]
      by_cases hdigit : c.isDigit = true
      · rw [if_pos hdigit]
        have hvalue : (value * 10 + (c.toNat - '0'.toNat)) * 10 ^ rest.length + decimal rest =
            value * 10 ^ (c :: rest).length + decimal (c :: rest) := by
          rw [decimal_cons, List.length_cons]
          ring
        simp only [ih, hvalue, List.forall_mem_cons, hdigit, true_and]
      · simp [hdigit]

private theorem digits?_eq_some_iff :
    digits? 10 digits = some n ↔
      digits ≠ [] ∧ (∀ c ∈ digits, c.isDigit = true) ∧ n = decimal digits := by
  cases digits with
  | nil => simp [digits?]
  | cons c rest => simp [digits?, digitsOnto_eq_some_iff]

/-- A numeral without its sign. -/
def unsigned (text : Text) : Text :=
  match text with
  | '+' :: rest => rest
  | _ => text

private theorem numeral_iff : Numeral text n ↔ digits? 10 (unsigned text) = some n := by
  rw [digits?_eq_some_iff]
  constructor
  · rintro (⟨hfilled, honly⟩ | ⟨hfilled, honly⟩)
    · unfold unsigned
      split
      · have hplus := honly '+' List.mem_cons_self
        cases hplus
      · exact ⟨hfilled, honly, rfl⟩
    · exact ⟨hfilled, honly, rfl⟩
  · unfold unsigned
    split
    · rintro ⟨hfilled, honly, rfl⟩
      exact .signed hfilled honly
    · rintro ⟨hfilled, honly, rfl⟩
      exact .plain hfilled honly

private theorem count?_eq (text : Text) :
    count? text = (digits? 10 (unsigned text)).filter (· < 2 ^ 64) := by
  have hbound : countBound = 2 ^ 64 := rfl
  simp only [count?, unsigned]
  generalize digits? 10 _ = found
  cases found with
  | none => rfl
  | some value => simp [Option.filter_some, hbound]

/-- A text names a number exactly when it is a numeral of one that fits into 64 bits. -/
theorem count?_eq_some_iff : count? text = some n ↔ Numeral text n ∧ n < 2 ^ 64 := by
  rw [count?_eq, Option.filter_eq_some_iff, ← numeral_iff, decide_eq_true_iff]

theorem count?_eq_none_iff : count? text = none ↔ ∀ n, Numeral text n → 2 ^ 64 ≤ n := by
  rw [Option.eq_none_iff_forall_ne_some]
  simp only [Ne, count?_eq_some_iff, not_and, not_lt]

end LineShell.Text
