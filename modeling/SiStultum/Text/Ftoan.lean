import Mathlib.Data.Rat.Floor
import SiStultum.Formatter.ProtoPrint
import SiStultum.Library.Fractions
import SiStultum.Text.Itoa

/-!
# Numbers with a point

`ftoan` writes the integer part with `itoas` and the digits of the fraction after it. Its arithmetic
is exact here. The integer part of a number between -1 and 0 is 0, which has no sign, so that the
text denotes the negated fraction (`ftoan_truncates_iff`).
-/

namespace SiStultum

open Numerals Signed

/-- The conversion of a `double` to an integer, which drops the fraction. -/
def truncate (value : ℚ) : Int :=
  if value < 0 then -(⌊-value⌋₊ : Int) else ⌊value⌋₊

section

variable {size : Nat}

/-- `while (n--)`, with `cp` the index of the next character. -/
def ftoanLoop (value : ℚ) (buff : Vector Char8 size) (cp : Nat) :
    (n : Nat) → Except Fault (Vector Char8 size × Nat)
  | 0 => .ok (buff, cp)
  | n + 1 => do
      let digit := truncate (value * 10)
      let buff ← poke buff cp (BitVec.ofInt 8 (48 + digit))
      ftoanLoop (value * 10 - digit) buff (cp + 1) n

end

/-- `ftoan`. -/
def ftoan (value : ℚ) (n : Nat) : BufferRoutine := fun size buff => do
  let intPart := truncate value
  let value := value - intPart
  let buff ← itoas (BitVec.ofInt 64 intPart) 10 size buff
  let value := if value < 0 then -value else value
  let cp ← strlen buff.toList
  let buff ← poke buff cp (chr '.')
  let (buff, cp) ← ftoanLoop value buff (cp + 1) n
  poke buff cp 0

/-- `ftoa`. -/
def ftoa (value : ℚ) : BufferRoutine :=
  ftoan value 8

/-- The number that a text with a point denotes, and how many digits it has after the point. -/
def readFixed (text : List Char8) : Option (ℚ × Nat) :=
  match text.dropWhile (· ≠ chr '.') with
  | [] => none
  | _ :: fraction =>
      (readInteger 10 (text.takeWhile (· ≠ chr '.'))).bind fun whole =>
        (readDigits true 10 fraction).map fun digits : Nat =>
          let part := (digits : ℚ) / 10 ^ fraction.length
          (if text.head? = some (chr '-') then whole - part else whole + part, fraction.length)

/-- A number truncated toward zero to `n` decimal places. -/
def truncatedTo (n : Nat) (value : ℚ) : ℚ :=
  (if value < 0 then -1 else 1) * ⌊|value| * 10 ^ n⌋₊ / 10 ^ n

/-! ## The text -/

/-- The characters after the point. -/
def fractionText (value : ℚ) (n : Nat) : List Char8 :=
  (fractionDigits 10 value n).map (digitChar true)

/-- What is left of a number without its integer part. -/
def fractionOf (value : ℚ) : ℚ :=
  |value| - ⌊|value|⌋₊

/-- The text that `ftoan` writes. -/
def fixedText (value : ℚ) (n : Nat) : List Char8 :=
  signedText decimal (BitVec.ofInt 64 (truncate value)) ++
    chr '.' :: fractionText (fractionOf value) n

/-- The fraction is at least 0 and smaller than 1. -/
theorem fraction_of_bounds (value : ℚ) : 0 ≤ fractionOf value ∧ fractionOf value < 1 := by
  have hle := Nat.floor_le (abs_nonneg value)
  have hlt := Nat.lt_floor_add_one |value|
  exact ⟨sub_nonneg.mpr hle, sub_lt_iff_lt_add'.mpr hlt⟩

/-- A number that is not negative is rounded down. -/
theorem truncate_of_nonneg {value : ℚ} (h : 0 ≤ value) : truncate value = ⌊|value|⌋₊ := by
  rw [truncate, if_neg (not_lt.mpr h), abs_of_nonneg h]

/-- A negative number is rounded up. -/
theorem truncate_of_neg {value : ℚ} (h : value < 0) : truncate value = -(⌊|value|⌋₊ : Int) := by
  rw [truncate, if_pos h, abs_of_neg h]

/-- The fraction that `ftoan` prints. -/
theorem fraction_part (value : ℚ) :
    (if value - truncate value < 0 then -(value - truncate value) else value - truncate value) =
      fractionOf value := by
  obtain ⟨hlow, _⟩ := fraction_of_bounds value
  rcases lt_or_ge value 0 with hneg | hnonneg
  · have hrest : value - truncate value = -fractionOf value := by
      rw [truncate_of_neg hneg, fractionOf, abs_of_neg hneg]
      push_cast
      ring
    rw [hrest, neg_neg]
    split
    · rfl
    · next hzero => linarith
  · have hrest : value - truncate value = fractionOf value := by
      rw [truncate_of_nonneg hnonneg, fractionOf, abs_of_nonneg hnonneg]
      push_cast
      ring
    rw [hrest, if_neg (not_lt.mpr hlow)]

/-- The loop appends the digits of the fraction. -/
theorem ftoan_loop_writes {size : Nat} {value : ℚ} (hlow : 0 ≤ value) (hhigh : value < 1)
    {text : List Char8} {buff : Vector Char8 size} (hstart : text <+: buff.toList) {n : Nat}
    (hroom : text.length + n ≤ size) :
    ∃ after, ftoanLoop value buff text.length n = .ok (after, text.length + n) ∧
      text ++ fractionText value n <+: after.toList := by
  induction n generalizing value text buff with
  | zero =>
      refine ⟨buff, rfl, ?_⟩
      rw [fractionText, fractionDigits, List.map_nil, List.append_nil]
      exact hstart
  | succ n ih =>
      have hdigit : truncate (value * 10) = ⌊value * 10⌋₊ := by
        rw [truncate_of_nonneg (by positivity), abs_of_nonneg (by positivity)]
      have hchar : BitVec.ofInt 8 (48 + (⌊value * 10⌋₊ : Int)) =
          digitChar true ⌊value * 10⌋₊ := by
        have hten : ⌊value * 10⌋₊ < 10 := by
          rw [Nat.floor_lt (by positivity)]
          push_cast
          linarith
        rw [digitChar, if_pos hten]
        rfl
      obtain ⟨hrest, hone⟩ := fraction_rest 10 hlow
      push_cast at hrest hone
      have hlength : (text ++ [digitChar true ⌊value * 10⌋₊]).length = text.length + 1 :=
        List.length_append
      obtain ⟨after, hloop, hafter⟩ := ih hrest hone
        (set_extends hstart (by omega) (digitChar true ⌊value * 10⌋₊)) (by omega)
      refine ⟨after, ?_, ?_⟩
      · rw [hlength] at hloop
        simp only [ftoanLoop, hdigit, hchar, poke_of_lt buff (show text.length < size by omega),
          ok_bind, Int.cast_natCast, hloop]
        congr 2
        omega
      · rw [List.append_assoc] at hafter
        simpa [fractionText, fractionDigits] using hafter

/-- There are as many digits as were asked for. -/
theorem length_fraction_text (value : ℚ) (n : Nat) : (fractionText value n).length = n := by
  rw [fractionText, List.length_map, length_fraction_digits]

/-- A digit is not NUL. -/
theorem digit_char_ne_zero : ∀ digit < 36, digitChar true digit ≠ 0 := by
  decide

/-- The digits of a fraction have no NUL. -/
theorem not_mem_fraction_text {value : ℚ} (hlow : 0 ≤ value) (hhigh : value < 1) (n : Nat) :
    0 ∉ fractionText value n := by
  intro hmem
  obtain ⟨digit, hdigit, hzero⟩ := List.mem_map.mp hmem
  have hlt := fraction_digits_lt (by decide) hlow hhigh n digit hdigit
  exact digit_char_ne_zero digit (by omega) hzero

/-- `ftoan` writes the integer part, the point and the digits. -/
theorem ftoan_writes (value : ℚ) (n : Nat) : Writes (ftoan value n) (fixedText value n) := by
  obtain ⟨hlow, hhigh⟩ := fraction_of_bounds value
  obtain ⟨hnul, hwrites⟩ := itoas_writes decimal (BitVec.ofInt 64 (truncate value))
  have hpoint : 0 ≠ chr '.' := by decide
  constructor
  · rw [fixedText, List.mem_append, List.mem_cons, not_or, not_or]
    exact ⟨hnul, hpoint, not_mem_fraction_text hlow hhigh n⟩
  · intro size buff hroom
    rw [fixedText, List.length_append, List.length_cons, length_fraction_text] at hroom
    obtain ⟨whole, hitoas, hwhole⟩ := hwrites size buff (by omega)
    have hstart := (List.prefix_append _ [0]).trans hwhole
    have hdot := set_extends hstart (by omega) (chr '.')
    obtain ⟨digits, hloop, hdigits⟩ := ftoan_loop_writes hlow hhigh hdot
      (show _ + n ≤ size by rw [List.length_append, List.length_singleton]; omega)
    have hlength : (fixedText value n).length =
        (signedText decimal (BitVec.ofInt 64 (truncate value))).length + 1 + n := by
      rw [fixedText, List.length_append, List.length_cons, length_fraction_text]
      omega
    have htext : signedText decimal (BitVec.ofInt 64 (truncate value)) ++ [chr '.'] ++
        fractionText (fractionOf value) n = fixedText value n := by
      rw [fixedText, List.append_assoc, List.singleton_append]
    rw [htext] at hdigits
    rw [List.length_append, List.length_singleton, ← hlength] at hloop
    have hafter := set_extends hdigits (by omega) 0
    have hpoke := poke_of_lt whole (Nat.lt_of_le_of_lt (Nat.le_add_right _ _) hroom) (chr '.')
    refine ⟨_, ?_, hafter⟩
    rw [ftoan]
    simp only [decimal] at hitoas
    simp only [fraction_part, hitoas, ok_bind, strlen_of_start hwhole hnul, hpoke, hloop]
    exact poke_of_lt digits (by omega) 0

/-! ## What the text denotes -/

/-- A numeral has no point. -/
theorem not_mem_point {base : DigitBase} {text : List Char8} {n : Int}
    (h : IsNumeral base text n) : chr '.' ∉ text := by
  have hother : chr '.' ≠ chr '-' := by decide
  have hno : chr '.' ∉ unsignedPart text := by
    intro hmem
    have hdigit := h.digits _ hmem
    revert hdigit
    decide
  intro hmem
  rw [unsignedPart] at hno
  split at hno
  · next hminus =>
    cases text with
    | nil => cases hmem
    | cons ch text =>
        obtain rfl : ch = chr '-' := Option.some.inj hminus
        exact hno ((List.mem_cons.mp hmem).resolve_left hother)
  · exact hno hmem

/-- A numeral, a point and digits, read as one number. -/
theorem read_fixed_eq {text fraction : List Char8} {whole : Int} {digits : Nat}
    (h : IsNumeral decimal text whole) (hfraction : readDigits true 10 fraction = some digits) :
    readFixed (text ++ chr '.' :: fraction) =
      some (if whole < 0 then (whole : ℚ) - digits / 10 ^ fraction.length
        else whole + digits / 10 ^ fraction.length, fraction.length) := by
  have hplain : ∀ ch ∈ text, decide (ch ≠ chr '.') = true := by
    intro ch hmem
    rw [decide_eq_true_eq]
    rintro rfl
    exact not_mem_point h hmem
  have hhead : (text ++ chr '.' :: fraction).head? = text.head? := by
    cases text with
    | nil => exact absurd rfl h.not_empty
    | cons ch text => rfl
  have hread : readInteger 10 text = some whole := h.reads
  rw [readFixed, List.dropWhile_append_of_pos hplain, List.takeWhile_append_of_pos hplain]
  simp only [List.dropWhile_cons, List.takeWhile_cons, ne_eq, not_true_eq_false, decide_false,
    Bool.false_eq_true, if_false, List.append_nil, hread, hfraction, Option.bind_some,
    Option.map_some, hhead, h.minus_iff]

/-- The digits of the fraction, read back. -/
theorem read_fraction_text {value : ℚ} (hlow : 0 ≤ value) (hhigh : value < 1) (n : Nat) :
    readDigits true 10 (fractionText value n) = some ⌊value * 10 ^ n⌋₊ := by
  have hdigits : ∀ digit ∈ fractionDigits 10 value n, digit < decimal.val :=
    fraction_digits_lt (by decide) hlow hhigh n
  have hread := read_digits_map true hdigits 0
  have hfold := fold_fraction_digits 10 hlow hhigh 0 n
  rw [Nat.zero_mul, Nat.zero_add] at hfold
  exact hread.trans (congrArg some hfold)

/-- The integer part is negative exactly from -1 down. -/
theorem truncate_neg_iff (value : ℚ) : truncate value < 0 ↔ value ≤ -1 := by
  rcases lt_or_ge value 0 with hneg | hnonneg
  · have hfloor : 0 < ⌊|value|⌋₊ ↔ 1 ≤ |value| := Nat.floor_pos
    rw [truncate_of_neg hneg, Int.neg_neg_iff_pos, Int.natCast_pos, hfloor, abs_of_neg hneg, le_neg]
  · rw [truncate_of_nonneg hnonneg]
    constructor
    · intro h
      omega
    · intro h
      linarith

/-- In the range of a `long` the integer part is stored as it is. -/
theorem to_int_truncate {value : ℚ} (hlow : -2 ^ 63 - 1 < value) (hhigh : value < 2 ^ 63) :
    (BitVec.ofInt 64 (truncate value)).toInt = truncate value := by
  rw [BitVec.toInt_ofInt]
  rcases lt_or_ge value 0 with hneg | hnonneg
  · have hfloor : ⌊|value|⌋₊ < 2 ^ 63 + 1 := by
      rw [Nat.floor_lt (abs_nonneg value), abs_of_neg hneg]
      push_cast
      linarith
    rw [truncate_of_neg hneg, Int.bmod_eq_of_le (by omega) (by omega)]
  · have hfloor : ⌊|value|⌋₊ < 2 ^ 63 := by
      rw [Nat.floor_lt (abs_nonneg value), abs_of_nonneg hnonneg]
      exact_mod_cast hhigh
    rw [truncate_of_nonneg hnonneg, Int.bmod_eq_of_le (by omega) (by omega)]

/-- The integer part and the digits after the point in units of the last digit. -/
theorem floor_abs_mul_pow (value : ℚ) (n : Nat) :
    (⌊|value| * 10 ^ n⌋₊ : ℚ) = ⌊|value|⌋₊ * 10 ^ n + ⌊fractionOf value * 10 ^ n⌋₊ := by
  have hsplit : |value| * 10 ^ n =
      fractionOf value * 10 ^ n + (⌊|value|⌋₊ * 10 ^ n : Nat) := by
    rw [fractionOf]
    push_cast
    ring
  have hlow := (fraction_of_bounds value).1
  rw [hsplit, Nat.floor_add_natCast (by positivity)]
  push_cast
  ring

/-- What the text of `ftoan` denotes: the sign is that of the integer part. -/
theorem read_fixed_text {value : ℚ} (hlow : -2 ^ 63 - 1 < value) (hhigh : value < 2 ^ 63)
    (n : Nat) :
    readFixed (fixedText value n) =
      some ((if value ≤ -1 then (-1 : ℚ) else 1) * ⌊|value| * 10 ^ n⌋₊ / 10 ^ n, n) := by
  obtain ⟨hzero, hone⟩ := fraction_of_bounds value
  have hnumeral := signed_text_is_numeral decimal (BitVec.ofInt 64 (truncate value))
  rw [to_int_truncate hlow hhigh] at hnumeral
  have hpow : (10 : ℚ) ^ n ≠ 0 := by positivity
  rw [fixedText, read_fixed_eq hnumeral (read_fraction_text hzero hone n), length_fraction_text,
    floor_abs_mul_pow]
  congr 2
  by_cases hsign : value ≤ -1
  · have hneg : value < 0 := by linarith
    rw [if_pos ((truncate_neg_iff value).mpr hsign), if_pos hsign, truncate_of_neg hneg]
    push_cast
    field_simp
    ring
  · rw [if_neg (mt (truncate_neg_iff value).mp hsign), if_neg hsign]
    -- between -1 and 0 the integer part is 0, as its sign is lost
    have hwhole : (truncate value : ℚ) = ⌊|value|⌋₊ := by
      rcases lt_or_ge value 0 with hneg | hnonneg
      · have hfloor : ⌊|value|⌋₊ = 0 := by
          rw [Nat.floor_eq_zero, abs_of_neg hneg]
          linarith
        rw [truncate_of_neg hneg, hfloor]
        rfl
      · rw [truncate_of_nonneg hnonneg, Int.cast_natCast]
    rw [hwhole]
    field_simp

/-- `ftoan` writes its argument truncated to `n` decimal places unless that argument is negative,
truncates to 0 and has a digit other than 0 among them. -/
theorem ftoan_truncates_iff {value : ℚ} (hlow : -2 ^ 63 - 1 < value) (hhigh : value < 2 ^ 63)
    (n : Nat) :
    ∃ text, Writes (ftoan value n) text ∧
      (readFixed text = some (truncatedTo n value, n) ↔
        0 ≤ value ∨ value ≤ -1 ∨ |value| * 10 ^ n < 1) := by
  refine ⟨fixedText value n, ftoan_writes value n, ?_⟩
  have hpow : (10 : ℚ) ^ n ≠ 0 := by positivity
  rw [read_fixed_text hlow hhigh, truncatedTo, Option.some.injEq, Prod.mk.injEq, and_iff_left rfl]
  by_cases hsign : value ≤ -1
  · have hneg : value < 0 := by linarith
    rw [if_pos hsign, if_pos hneg]
    exact ⟨fun _ => .inr (.inl hsign), fun _ => rfl⟩
  · rcases lt_or_ge value 0 with hneg | hnonneg
    · rw [if_neg hsign, if_pos hneg, or_iff_right (not_le.mpr hneg), or_iff_right hsign,
        ← Nat.floor_eq_zero]
      constructor
      · intro heq
        field_simp at heq
        have hzero : (⌊|value| * 10 ^ n⌋₊ : ℚ) = 0 := by linarith
        exact_mod_cast hzero
      · intro hzero
        rw [hzero, Nat.cast_zero, mul_zero, mul_zero]
    · rw [if_neg hsign, if_neg (not_lt.mpr hnonneg)]
      exact ⟨fun _ => .inl hnonneg, fun _ => rfl⟩

/-- -1.999 with two decimal places. -/
theorem ftoan_truncates_negative :
    ∃ text, Writes (ftoan (-1999 / 1000) 2) text ∧
      (readFixed text = some (truncatedTo 2 (-1999 / 1000), 2) ↔
        (0 : ℚ) ≤ -1999 / 1000 ∨ (-1999 / 1000 : ℚ) ≤ -1 ∨ |(-1999 / 1000 : ℚ)| * 10 ^ 2 < 1) :=
  ftoan_truncates_iff (by norm_num) (by norm_num) 2

/-- `ftoan` of -0.5 with one digit writes 0.5. -/
theorem ftoan_loses_sign :
    (ftoan (-1 / 2) 1 4 (Vector.replicate 4 0)).map Vector.toList =
        .ok ("0.5".toList.map chr ++ [0]) ∧
      readFixed ("0.5".toList.map chr) = some (1 / 2, 1) ∧ truncatedTo 1 (-1 / 2) = -1 / 2 := by
  decide +kernel

end SiStultum
