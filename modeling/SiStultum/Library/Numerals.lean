import Mathlib.Data.Nat.Digits.Lemmas
import Mathlib.Tactic.Common

/-!
# Digit loops

A loop `do { put(n % base); n /= base; } while (n)` puts the digits of `n` from the lowest on,
and one digit for zero. `lowDigits` are these digits; above zero they are `Nat.digits`.
-/

namespace Numerals

/-- The digits of `n` from the lowest on, at least one. -/
def lowDigits (base n : Nat) : List Nat :=
  if n = 0 then [0] else Nat.digits base n

/-- The digits denote the number they come from. -/
theorem of_digits_low_digits (base n : Nat) : Nat.ofDigits base (lowDigits base n) = n := by
  rw [lowDigits]
  split
  · next hn => rw [hn, Nat.ofDigits_singleton]
  · exact Nat.ofDigits_digits base n

variable {base : Nat}

/-- The last turn of the loop. -/
theorem low_digits_last (hbase : 2 ≤ base) {n : Nat} (h : n / base = 0) :
    lowDigits base n = [n % base] := by
  have hlt : n < base := (Nat.div_eq_zero_iff_lt (by omega)).mp h
  rw [Nat.mod_eq_of_lt hlt, lowDigits]
  split
  · next hn => rw [hn]
  · next hn => exact Nat.digits_of_lt base n hn hlt

/-- Every other turn. -/
theorem low_digits_step (hbase : 2 ≤ base) {n : Nat} (h : n / base ≠ 0) :
    lowDigits base n = n % base :: lowDigits base (n / base) := by
  have hn : 0 < n := by
    rcases Nat.eq_zero_or_pos n with hzero | hpos
    · simp [hzero] at h
    · exact hpos
  rw [lowDigits, lowDigits, if_neg (by omega), if_neg h, Nat.digits_def' hbase hn]

/-- A digit is smaller than the base. -/
theorem lt_base_of_mem_low_digits (hbase : 2 ≤ base) {n d : Nat} (h : d ∈ lowDigits base n) :
    d < base := by
  rw [lowDigits] at h
  split at h
  · rw [List.mem_singleton] at h
    omega
  · exact Nat.digits_lt_base hbase h

/-- The numbers with at most `k` digits. -/
theorem length_low_digits_le_iff (hbase : 2 ≤ base) {n k : Nat} (hk : 0 < k) :
    (lowDigits base n).length ≤ k ↔ n < base ^ k := by
  rw [lowDigits]
  split
  · next hn =>
    have hpos : 0 < base ^ k := Nat.pow_pos (by omega)
    rw [hn, List.length_singleton]
    exact ⟨fun _ => hpos, fun _ => hk⟩
  · exact Nat.digits_length_le_iff hbase n

end Numerals
