import Mathlib.Tactic.SplitIfs
import LineShell.Text.Utf8

/-!
Decoding reads what encoding has written. Each character is read back from its own bytes:
the first of them tells how many there are and what bounds the second one has, and every
character that there is keeps these bounds, as surrogates are no characters.
-/

namespace LineShell.Text

namespace Decoder

private theorem toNat_tail (n : Nat) : (UInt8.ofNat (0x80 + n % 64)).toNat = 0x80 + n % 64 := by
  rw [UInt8.toNat_ofNat_of_lt']
  show _ < 256
  omega

/-- A byte within its bounds is taken into the value of its sequence. -/
theorem finish_tail {missing low high value n : Nat} (hlow : low ≤ 0x80 + n % 64)
    (hhigh : 0x80 + n % 64 ≤ high) (hmissing : missing ≠ 1) (bytes : Bytes) :
    (within missing low high value).finish (UInt8.ofNat (0x80 + n % 64) :: bytes) =
      (within (missing - 1) 0x80 0xBF (value * 64 + n % 64)).finish bytes := by
  simp only [finish, next, toNat_tail, hlow, hhigh, and_self, if_true, hmissing, if_false,
    Nat.add_sub_cancel_left, List.nil_append]

/-- The last byte of a sequence ends it with a character. -/
theorem finish_last {low high value n : Nat} (hlow : low ≤ 0x80 + n % 64)
    (hhigh : 0x80 + n % 64 ≤ high) (bytes : Bytes) :
    (within 1 low high value).finish (UInt8.ofNat (0x80 + n % 64) :: bytes) =
      Char.ofNat (value * 64 + n % 64) :: ready.finish bytes := by
  simp only [finish, next, toNat_tail, hlow, hhigh, and_self, if_true,
    Nat.add_sub_cancel_left, List.singleton_append]

private theorem finish_first {n : Nat} (hn : n < 256) (bytes : Bytes) :
    ready.finish (UInt8.ofNat n :: bytes) = (begin n).2 ++ (begin n).1.finish bytes := by
  rw [finish, next, UInt8.toNat_ofNat_of_lt' hn]

variable {n : Nat}

private theorem begin_two (hlow : 0x80 ≤ n) (hhigh : n < 0x800) :
    begin (0xC0 + n / 64) = (within 1 0x80 0xBF (n / 64), []) := by
  unfold begin
  rw [if_neg (by omega), if_neg (by omega), if_pos (by omega), Nat.add_sub_cancel_left]

/-- The second of three bytes keeps the bounds that the first one sets, which leave out
the overlong forms and the surrogates. -/
theorem begin_three (hlow : 0x800 ≤ n) (hhigh : n < 0x10000)
    (hchar : n < 0xD800 ∨ 0xDFFF < n) :
    ∃ low high, begin (0xE0 + n / 4096) = (within 2 low high (n / 4096), []) ∧
      low ≤ 0x80 + n / 64 % 64 ∧ 0x80 + n / 64 % 64 ≤ high := by
  unfold begin
  rw [if_neg (by omega), if_neg (by omega), if_neg (by omega)]
  by_cases hfirst : n / 4096 = 0
  · rw [if_pos (by omega), hfirst]
    exact ⟨_, _, rfl, by omega, by omega⟩
  rw [if_neg (by omega)]
  by_cases hsurrogate : n / 4096 = 0xD
  · rw [if_pos (by omega), hsurrogate]
    exact ⟨_, _, rfl, by omega, by omega⟩
  rw [if_neg (by omega), if_pos (by omega), Nat.add_sub_cancel_left]
  exact ⟨_, _, rfl, by omega, by omega⟩

/-- The second of four bytes keeps its bounds as well, which leave out what lies beyond the
last code point. -/
theorem begin_four (hlow : 0x10000 ≤ n) (hhigh : n < 0x110000) :
    ∃ low high, begin (0xF0 + n / 262144) = (within 3 low high (n / 262144), []) ∧
      low ≤ 0x80 + n / 4096 % 64 ∧ 0x80 + n / 4096 % 64 ≤ high := by
  unfold begin
  rw [if_neg (by omega), if_neg (by omega), if_neg (by omega), if_neg (by omega),
    if_neg (by omega), if_neg (by omega)]
  by_cases hfirst : n / 262144 = 0
  · rw [if_pos (by omega), hfirst]
    exact ⟨_, _, rfl, by omega, by omega⟩
  rw [if_neg (by omega)]
  by_cases hlast : n / 262144 = 4
  · rw [if_neg (by omega), if_pos (by omega), hlast]
    exact ⟨_, _, rfl, by omega, by omega⟩
  rw [if_pos (by omega), Nat.add_sub_cancel_left]
  exact ⟨_, _, rfl, by omega, by omega⟩

end Decoder

private theorem decode_encodeChar (c : Char) (bytes : Bytes) :
    Decoder.ready.finish (encodeChar c ++ bytes) = c :: Decoder.ready.finish bytes := by
  have hchar : c.toNat < 0xD800 ∨ 0xDFFF < c.toNat ∧ c.toNat < 0x110000 := c.valid
  have hback : Char.ofNat c.toNat = c := Char.ofNat_toNat c
  generalize hn : c.toNat = n at hchar hback
  simp only [encodeChar, hn]
  split_ifs with hone htwo hthree
  · have hbegin : Decoder.begin n = (.ready, [c]) := by rw [Decoder.begin, if_pos hone, hback]
    rw [List.singleton_append, Decoder.finish_first (by omega), hbegin]
    rfl
  · have hvalue : n / 64 * 64 + n % 64 = n := by omega
    rw [List.cons_append, Decoder.finish_first (by omega), Decoder.begin_two (by omega) htwo,
      List.nil_append, List.singleton_append, Decoder.finish_last (by omega) (by omega), hvalue,
      hback]
  · obtain ⟨low, high, hbegin, hlow, hhigh⟩ :=
      Decoder.begin_three (n := n) (by omega) hthree (by omega)
    have hvalue : (n / 4096 * 64 + n / 64 % 64) * 64 + n % 64 = n := by omega
    rw [List.cons_append, Decoder.finish_first (by omega), hbegin, List.nil_append,
      List.cons_append, Decoder.finish_tail hlow hhigh (by omega), List.singleton_append,
      Decoder.finish_last (by omega) (by omega), hvalue, hback]
  · obtain ⟨low, high, hbegin, hlow, hhigh⟩ :=
      Decoder.begin_four (n := n) (by omega) (by omega)
    have hvalue : ((n / 262144 * 64 + n / 4096 % 64) * 64 + n / 64 % 64) * 64 + n % 64 = n := by
      omega
    rw [List.cons_append, Decoder.finish_first (by omega), hbegin, List.nil_append,
      List.cons_append, Decoder.finish_tail hlow hhigh (by omega), List.cons_append,
      Decoder.finish_tail (by omega) (by omega) (by omega), List.singleton_append,
      Decoder.finish_last (by omega) (by omega), hvalue, hback]

/-- A text comes back from its bytes. -/
theorem decode_encode (text : Text) : decode (encode text) = text := by
  induction text with
  | nil => rfl
  | cons c rest ih =>
      calc
        decode (encode (c :: rest)) = Decoder.ready.finish (encodeChar c ++ encode rest) := rfl
        _ = c :: decode (encode rest) := decode_encodeChar c _
        _ = c :: rest := by rw [ih]

end LineShell.Text
