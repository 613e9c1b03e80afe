import Mathlib.Algebra.Order.Floor.Semiring
import Mathlib.Algebra.Order.Field.Basic
import Mathlib.Tactic.Positivity
import Mathlib.Tactic.Ring

/-!
# Digits after the point

A loop that multiplies a fraction by the base and takes off the integer part yields its digits after
the point. The first `n` of them denote the fraction in units of `1 / base ^ n`, rounded down
(`fold_fraction_digits`).
-/

namespace Numerals

variable {K : Type*} [Field K] [LinearOrder K] [IsStrictOrderedRing K] [FloorSemiring K]

/-- The first digits of `x` after the point. -/
def fractionDigits (base : Nat) : K → Nat → List Nat
  | _, 0 => []
  | x, n + 1 => ⌊x * base⌋₊ :: fractionDigits base (x * base - ⌊x * base⌋₊) n

variable {base : Nat} {x : K}

omit [IsStrictOrderedRing K] in
/-- As many digits as were asked for. -/
theorem length_fraction_digits (base : Nat) (x : K) (n : Nat) :
    (fractionDigits base x n).length = n := by
  induction n generalizing x with
  | zero => rfl
  | succ n ih => rw [fractionDigits, List.length_cons, ih]

/-- A turn leaves a fraction. -/
theorem fraction_rest (base : Nat) (hx : 0 ≤ x) :
    0 ≤ x * base - ⌊x * base⌋₊ ∧ x * base - ⌊x * base⌋₊ < 1 := by
  have hnonneg : 0 ≤ x * base := by positivity
  have hle := Nat.floor_le hnonneg
  have hlt := Nat.lt_floor_add_one (x * base)
  exact ⟨sub_nonneg.mpr hle, sub_lt_iff_lt_add'.mpr hlt⟩

/-- The digits of a fraction below 1 are digits of the base. -/
theorem fraction_digits_lt (hbase : 0 < base) (hx : 0 ≤ x) (hone : x < 1) (n : Nat) :
    ∀ digit ∈ fractionDigits base x n, digit < base := by
  induction n generalizing x with
  | zero =>
      intro digit hmem
      cases hmem
  | succ n ih =>
      intro digit hmem
      rcases List.mem_cons.mp hmem with rfl | hrest
      · rw [Nat.floor_lt (by positivity)]
        exact mul_lt_of_lt_one_left (Nat.cast_pos.mpr hbase) hone
      · obtain ⟨hlow, hhigh⟩ := fraction_rest base hx
        exact ih hlow hhigh digit hrest

/-- The first digit, and the digits of what it leaves. -/
theorem floor_mul_pow_succ (hx : 0 ≤ x) (n : Nat) :
    ⌊x * (base : K) ^ (n + 1)⌋₊ =
      ⌊x * base⌋₊ * base ^ n + ⌊(x * base - ⌊x * base⌋₊) * (base : K) ^ n⌋₊ := by
  have hsplit : x * (base : K) ^ (n + 1) = (x * base - ⌊x * base⌋₊) * (base : K) ^ n +
      (⌊x * base⌋₊ * base ^ n : Nat) := by
    push_cast
    ring
  have hrest := (fraction_rest base hx).1
  rw [hsplit, Nat.floor_add_natCast (by positivity), Nat.add_comm]

/-- The digits after a number read so far. -/
theorem fold_fraction_digits (base : Nat) (hx : 0 ≤ x) (hone : x < 1) (start n : Nat) :
    (fractionDigits base x n).foldl (fun value digit => value * base + digit) start =
      start * base ^ n + ⌊x * (base : K) ^ n⌋₊ := by
  induction n generalizing x start with
  | zero =>
      rw [fractionDigits, List.foldl_nil, pow_zero, pow_zero, mul_one, mul_one,
        Nat.floor_eq_zero.mpr hone, Nat.add_zero]
  | succ n ih =>
      obtain ⟨hlow, hhigh⟩ := fraction_rest base hx
      rw [fractionDigits, List.foldl_cons, ih hlow hhigh, floor_mul_pow_succ hx]
      ring

end Numerals
