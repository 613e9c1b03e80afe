import SiStultum.Formatter.Fields

/-!
# Reading numerals back

`readDigits` reads a text of digits, most significant digit first. What the digit loops store is
read back to the number they started from, with the zeros of a precision in front of it
(`read_number`, `read_unsigned_body`).
-/

namespace SiStultum

open Numerals

/-- The value of a digit: `0`-`9`, and the letters of one case from ten on. -/
def digitValue (upper : Bool) (ch : Char8) : Option Nat :=
  let letter := if upper then 65 else 97
  if 48 ≤ ch.toNat ∧ ch.toNat ≤ 57 then some (ch.toNat - 48)
  else if letter ≤ ch.toNat ∧ ch.toNat < letter + 26 then some (ch.toNat - letter + 10)
  else none

/-- One more digit of a number read so far. -/
def readDigit (upper : Bool) (base value : Nat) (ch : Char8) : Option Nat :=
  (digitValue upper ch).bind fun digit =>
    if digit < base then some (value * base + digit) else none

/-- The number that a text denotes, `none` if some character is no digit of the base. -/
def readDigits (upper : Bool) (base : Nat) (text : List Char8) : Option Nat :=
  text.foldlM (readDigit upper base) 0

/-- The digits of a number from the highest on. -/
def numeralText (upper : Bool) (base n : Nat) : List Char8 :=
  (unsignedChars upper base n).reverse

/-- A digit is read back. -/
theorem digit_value_digit_char (upper : Bool) :
    ∀ digit < 36, digitValue upper (digitChar upper digit) = some digit := by
  revert upper
  decide

variable {base : DigitBase}

/-- Digits after a number read so far. -/
theorem read_digits_map (upper : Bool) {digits : List Nat}
    (hdigits : ∀ digit ∈ digits, digit < base.val) (start : Nat) :
    (digits.map (digitChar upper)).foldlM (readDigit upper base.val) start =
      some (digits.foldl (fun value digit => value * base.val + digit) start) := by
  induction digits generalizing start with
  | nil => rfl
  | cons digit digits ih =>
      obtain ⟨hdigit, hrest⟩ := List.forall_mem_cons.mp hdigits
      have hletters := base.le_letters
      have hread : readDigit upper base.val start (digitChar upper digit) =
          some (start * base.val + digit) := by
        rw [readDigit, digit_value_digit_char upper digit (by omega), Option.bind_some,
          if_pos hdigit]
      rw [List.map_cons, List.foldlM_cons, hread, List.foldl_cons]
      exact ih hrest _

/-- Digits that were stored from the lowest on, read from the highest on. -/
theorem read_digits_reverse (upper : Bool) {digits : List Nat}
    (hdigits : ∀ digit ∈ digits, digit < base.val) :
    readDigits upper base.val (digits.map (digitChar upper)).reverse =
      some (Nat.ofDigits base.val digits) := by
  have hreverse : ∀ digit ∈ digits.reverse, digit < base.val := by
    simpa using hdigits
  rw [← List.map_reverse, readDigits, read_digits_map upper hreverse, List.foldl_reverse,
    Nat.ofDigits_eq_foldr]
  simp only [Nat.cast_id, Nat.add_comm, Nat.mul_comm]

/-- A number with leading zeros. -/
theorem read_number (upper : Bool) (n zeros : Nat) :
    readDigits upper base.val
        (unsignedChars upper base.val n ++ List.replicate zeros (chr '0')).reverse = some n := by
  have hchars : unsignedChars upper base.val n ++ List.replicate zeros (chr '0') =
      (lowDigits base.val n ++ List.replicate zeros 0).map (digitChar upper) := by
    rw [List.map_append, List.map_replicate, unsignedChars]
    rfl
  have hdigits : ∀ digit ∈ lowDigits base.val n ++ List.replicate zeros 0, digit < base.val := by
    intro digit hmem
    rcases List.mem_append.mp hmem with hdigit | hzero
    · exact lt_base_of_mem_low_digits base.two_le hdigit
    · have htwo := base.two_le
      rw [List.eq_of_mem_replicate hzero]
      omega
  rw [hchars, read_digits_reverse upper hdigits, Nat.ofDigits_append_replicate_zero,
    of_digits_low_digits]

/-- A numeral is read back. -/
theorem read_numeral_text (upper : Bool) (n : Nat) :
    readDigits upper base.val (numeralText upper base.val n) = some n := by
  simpa [numeralText] using read_number upper n 0

/-- What `__print_unsigned` stores, the empty text of 0 with precision 0 included. -/
theorem read_unsigned_body (n : Nat) (precision : Int) (upper : Bool) :
    readDigits upper base.val (unsignedBody n precision base.val upper).reverse = some n := by
  rw [unsignedBody]
  split
  · exact read_number upper n _
  · next hnone =>
    obtain ⟨rfl, rfl⟩ : precision = 0 ∧ n = 0 := by omega
    rfl

end SiStultum
