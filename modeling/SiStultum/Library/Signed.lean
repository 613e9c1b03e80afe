import Mathlib.Algebra.Order.Ring.Int
import Mathlib.Tactic.Common

/-!
# Signed C arithmetic

The exact result of an operation on signed integers is an `Int`. Converting it to an `int` keeps
its value modulo `2 ^ 32`; whether an `int` or a `long long` holds it at all is `FitsInt` or
`FitsLong`.
-/

namespace Signed

/-- The value an `int` holds after an operation with exact result `x`. -/
def int32 (x : Int) : Int :=
  x.bmod (2 ^ 32)

/-- An `int` holds the number. -/
def FitsInt (x : Int) : Prop :=
  -2 ^ 31 ≤ x ∧ x < 2 ^ 31

/-- A `long long` holds the number. -/
def FitsLong (x : Int) : Prop :=
  -2 ^ 63 ≤ x ∧ x < 2 ^ 63

instance (x : Int) : Decidable (FitsInt x) :=
  inferInstanceAs (Decidable (_ ∧ _))

instance (x : Int) : Decidable (FitsLong x) :=
  inferInstanceAs (Decidable (_ ∧ _))

/-- A result in range is stored as it is. -/
theorem int32_of_fits {x : Int} (hlow : -2 ^ 31 ≤ x) (hhigh : x < 2 ^ 31) : int32 x = x := by
  apply Int.bmod_eq_of_le <;> omega

/-- The upper bound of an `int`. -/
theorem int32_upper (x : Int) : int32 x < 2 ^ 31 := by
  have h := Int.bmod_lt (x := x) (show 0 < 2 ^ 32 by decide)
  rw [int32]
  omega

/-- Wrapping an operand first does not change a wrapped sum. -/
@[simp] theorem int32_int32_add (x y : Int) : int32 (int32 x + y) = int32 (x + y) :=
  Int.bmod_add_bmod

/-- A summand may be stored before the sum is. -/
@[simp] theorem int32_add_int32 (x y : Int) : int32 (x + int32 y) = int32 (x + y) :=
  Int.add_bmod_bmod

/-- Two results are stored alike exactly when they differ by a multiple of `2 ^ 32`. -/
theorem int32_eq_int32_iff (x y : Int) : int32 x = int32 y ↔ (2 ^ 32 : Int) ∣ x - y := by
  rw [int32, int32, Int.bmod_eq_bmod_iff_bmod_sub_eq_zero, ← Int.dvd_iff_bmod_eq_zero]
  rfl

end Signed
