import SiStultum.Formatter.Pieces

/-!
# The digit buffer

The integer printers stay inside `__str_buff` exactly when the precision and the digits leave room
for the NUL (`str_buff_kept_iff`). The one number that `__print_int` cannot negate faults before
anything is stored.
-/

namespace SiStultum

open Numerals Signed

/-- The digits of an unsigned number fit in the buffer exactly with at most 31 of them. -/
theorem length_unsigned_body_lt_iff (n : Nat) (precision : Int) (base : DigitBase)
    (upper : Bool) : (unsignedBody n precision base.val upper).length < 32 ↔
      precision ≤ 31 ∧ n < base.val ^ 31 := by
  rw [unsignedBody]
  split
  · have hdigits : (unsignedChars upper base.val n).length ≤ 31 ↔ n < base.val ^ 31 := by
      rw [unsignedChars, List.length_map, length_low_digits_le_iff base.two_le (by decide)]
    rw [length_zero_extend, ← hdigits]
    omega
  · next hzero =>
    obtain ⟨rfl, rfl⟩ : precision = 0 ∧ n = 0 := by omega
    have hpos : 0 < base.val ^ 31 := Nat.pow_pos (by have := base.two_le; omega)
    simp [hpos]

/-- The stored digits of a `long long` fit exactly when the precision leaves room for the NUL. -/
theorem length_int_body_lt_iff {n : Int} (hlow : -2 ^ 63 ≤ n) (hhigh : n < 2 ^ 63)
    (precision : Int) : (intBody n precision).length < 32 ↔ precision ≤ 31 := by
  have hdigits : n.natAbs < decimal.val ^ 31 := by
    have hbound : (2 : Nat) ^ 63 < decimal.val ^ 31 := by decide
    omega
  rw [intBody, length_unsigned_body_lt_iff, and_iff_left hdigits]

/-- The precision and the digits of a conversion leave room for the NUL. A signed number has at
most 19 digits, and the address of a `%p` 16. -/
def NumberFits (spec : Spec) (word : BitVec 64) : Conversion → Prop
  | .signed => spec.precision ≤ 31
  | .unsigned base _ => spec.precision ≤ 31 ∧ unsignedArg spec.length word < base.val ^ 31
  | _ => True

/-- A signed conversion is given the least `long long`. -/
def NegatesLeast (spec : Spec) (word : BitVec 64) (conversion : Conversion) : Prop :=
  conversion = .signed ∧ signedArg spec.length word = -2 ^ 63

/-- An unsigned conversion leaves the buffer exactly for a precision above 31 or a number of more
than 31 digits. -/
theorem unsigned_printed_fits_iff (n : Nat) (width precision : Int) (align : Bool) (pad : Char8)
    (base : DigitBase) (upper : Bool) :
    unsignedPrinted n width precision align pad base upper = .error .outOfBounds ↔
      ¬ (precision ≤ 31 ∧ n < base.val ^ 31) := by
  rw [unsignedPrinted, ← length_unsigned_body_lt_iff n precision base upper]
  split
  · next hfits => exact ⟨fun h => absurd h (by simp), fun h => absurd hfits h⟩
  · next hfull => exact ⟨fun _ => hfull, fun _ => rfl⟩

/-- A signed conversion leaves the buffer exactly for a precision above 31: a number of 64 bits has
fewer digits. -/
theorem int_printed_fits_iff {n : Int} (hlow : -2 ^ 63 < n) (hhigh : n < 2 ^ 63)
    (width precision : Int) (align : Bool) (prefixChar pad : Char8) :
    intPrinted n width precision align prefixChar pad = .error .outOfBounds ↔
      ¬ precision ≤ 31 := by
  rw [intPrinted, if_neg (not_le.mpr hlow), ← length_int_body_lt_iff (by omega) hhigh precision]
  split
  · next hfits => exact ⟨fun h => absurd h (by simp), fun h => absurd hfits h⟩
  · next hfull => exact ⟨fun _ => hfull, fun _ => rfl⟩

/-- A conversion of a number overruns the buffer exactly when the number does not fit. -/
theorem directive_printed_fits_iff (spec : Spec) {conversion : Conversion}
    (hnumber : conversion.isNumber = true) {arg : Arg}
    (hleast : ¬ NegatesLeast spec arg.word conversion) :
    directivePrinted spec conversion arg = .error .outOfBounds ↔
      ¬ NumberFits spec arg.word conversion := by
  cases conversion with
  | float | char | string | percent | unknown => cases hnumber
  | signed =>
      obtain ⟨hlow, hhigh⟩ := signed_arg_range spec.length arg.word
      have hne : signedArg spec.length arg.word ≠ -2 ^ 63 := fun h => hleast ⟨rfl, h⟩
      exact int_printed_fits_iff (by omega) hhigh _ _ _ _ _
  | unsigned base upper => exact unsigned_printed_fits_iff _ _ _ _ _ _ _
  | pointer =>
      have hword : arg.word.toNat < hexadecimal.val ^ 31 := arg.word.isLt.trans (by decide)
      rw [directivePrinted, unsigned_printed_fits_iff]
      exact not_congr ⟨fun _ => trivial, fun _ => ⟨by decide, hword⟩⟩

/-- An integer conversion runs, and stays inside `__str_buff`, exactly when its precision is at most
31 and, where it is unsigned, its argument has at most 31 digits, and where it is signed, its
argument can be negated; of those that can be, all others overrun the buffer. -/
theorem str_buff_kept_iff (spec : Spec) {conversion : Conversion}
    (hnumber : conversion.isNumber = true) {s : PrintState} {arg : Arg} {rest : List Arg}
    (hargs : s.args = arg :: rest) :
    ((∃ after, printDirective spec conversion s = .ok after) ↔
        NumberFits spec arg.word conversion ∧ ¬ NegatesLeast spec arg.word conversion) ∧
      (printDirective spec conversion s = .error .outOfBounds ↔
        ¬ NumberFits spec arg.word conversion ∧ ¬ NegatesLeast spec arg.word conversion) := by
  have hone : 1 ≤ s.args.length := by
    rw [hargs]
    exact Nat.succ_pos _
  have hnext : nextArg s.args = arg := by rw [hargs]; rfl
  have hcomputes := print_number_computes spec hnumber hone
  rw [hnext] at hcomputes
  rw [hcomputes.error_iff, hcomputes.ok_iff]
  by_cases hleast : NegatesLeast spec arg.word conversion
  · obtain ⟨rfl, hword⟩ := hleast
    rw [directive_printed_least hword]
    simp [NegatesLeast, hword]
  · rw [directive_printed_fits_iff spec hnumber hleast, and_iff_left hleast, and_iff_left hleast]
    refine ⟨⟨?_, fun hfits => ?_⟩, Iff.rfl⟩
    · rintro ⟨printed, hprinted⟩
      by_contra hfull
      rw [← directive_printed_fits_iff spec hnumber hleast, hprinted] at hfull
      cases hfull
    · cases hprinted : directivePrinted spec conversion arg with
      | ok printed => exact ⟨printed, rfl⟩
      | error fault =>
          rcases directive_printed_fault hprinted with rfl | ⟨_, hnegates⟩
          · rw [directive_printed_fits_iff spec hnumber hleast] at hprinted
            exact absurd hfits hprinted
          · exact absurd hnegates hleast

/-- `%b` of 5 keeps to the buffer. -/
theorem str_buff_kept_five :
    ((∃ after, printDirective {} (.unsigned binary false) ⟨[], 0, clearBuff, [⟨5, []⟩]⟩ =
          .ok after) ↔
        NumberFits {} 5 (.unsigned binary false) ∧
          ¬ NegatesLeast {} 5 (.unsigned binary false)) ∧
      (printDirective {} (.unsigned binary false) ⟨[], 0, clearBuff, [⟨5, []⟩]⟩ =
          .error .outOfBounds ↔
        ¬ NumberFits {} 5 (.unsigned binary false) ∧
          ¬ NegatesLeast {} 5 (.unsigned binary false)) :=
  str_buff_kept_iff {} (show (Conversion.unsigned binary false).isNumber = true from rfl)
    (show PrintState.args ⟨[], 0, clearBuff, [⟨5, []⟩]⟩ = ⟨5, []⟩ :: [] from rfl)

/-- `%b` of `2 ^ 31` has 32 digits, and its NUL is stored past the buffer. -/
theorem binary_number_overruns :
    protoPrint clearBuff [chr '%', chr 'b', 0] [⟨0x80000000, []⟩] = .error .outOfBounds := by
  decide +kernel

end SiStultum
