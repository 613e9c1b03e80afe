import SiStultum.Formatter.SignedText
import SiStultum.Formatter.UnsignedText

/-!
# The padding of integer fields

`Directive.isoField` is the field that C asks for: sign, digits and padding. The integer printers
print it unless a flag `0` meets an explicit precision of zero, which only a positive precision
overrides (`integer_directive_iso_iff`).
-/

namespace SiStultum

open Numerals Signed

/-- The number of an integer conversion. -/
structure IntegerNumber where
  sign : List Char8
  magnitude : Nat
  base : DigitBase
  upper : Bool

/-- The sign of a signed number, which a negative number has in any case. -/
def isoSign (flags : List Flag) (n : Int) : List Char8 :=
  if n < 0 then [chr '-']
  else if .plus ∈ flags then [chr '+']
  else if .space ∈ flags then [chr ' ']
  else []

/-- The number that an integer conversion prints, `none` for the other conversions. -/
def Directive.integerNumber (d : Directive) (arg : Arg) : Option IntegerNumber :=
  match conversionOf d.conv with
  | .signed =>
      let n := signedArg d.length arg.word
      some ⟨isoSign d.flags n, n.natAbs, decimal, false⟩
  | .unsigned base upper => some ⟨[], unsignedArg d.length arg.word, base, upper⟩
  | _ => none

/-- The digits with the zeros of the precision. The number 0 with precision 0 has none. -/
def Directive.isoDigits (d : Directive) (number : IntegerNumber) : List Char8 :=
  let digits := numeralText number.upper number.base.val number.magnitude
  match d.precision with
  | none => digits
  | some numeral =>
      if numeral.value = 0 ∧ number.magnitude = 0 then []
      else List.replicate (numeral.value - digits.length) (chr '0') ++ digits

/-- The field of an integer conversion in C. -/
def Directive.isoField (d : Directive) (number : IntegerNumber) : List Char8 :=
  let sign := number.sign
  let digits := d.isoDigits number
  let fill := d.width.value - (sign.length + digits.length)
  if .minus ∈ d.flags then sign ++ digits ++ List.replicate fill (chr ' ')
  else if .zero ∈ d.flags ∧ d.precision = none then sign ++ List.replicate fill (chr '0') ++ digits
  else List.replicate fill (chr ' ') ++ sign ++ digits

/-- The length of a number without its padding. -/
def Directive.bareLength (d : Directive) (number : IntegerNumber) : Nat :=
  number.sign.length + d.digitCount number.base.val number.magnitude

/-- The directive pads with zeros on the left although it has a precision, which is zero. -/
def Directive.ZeroPadsPrecision (d : Directive) : Prop :=
  .zero ∈ d.flags ∧ .minus ∉ d.flags ∧ ∃ numeral, d.precision = some numeral ∧ numeral.value = 0

/-! ## Two paddings of the same text -/

/-- The zeros in front of the text tell the two paddings on the left apart. -/
theorem layout_zeros_eq_spaces_iff (sign text : List Char8) (width : Int) :
    layout sign text width false (chr '0') = layout sign text width false (chr ' ') ↔
      width.toNat ≤ sign.length + text.length := by
  have hother : chr ' ' ≠ chr '0' := by decide
  simp only [layout, Bool.false_eq_true, if_false, if_true, if_neg hother]
  constructor
  · intro heq
    have hcount := congrArg (List.count (chr '0')) heq
    have hspaces (fill : Nat) : List.count (chr '0') (List.replicate fill (chr ' ')) = 0 := by
      rw [List.count_eq_zero]
      intro hmem
      exact absurd (List.eq_of_mem_replicate hmem) (Ne.symm hother)
    simp only [List.count_append, List.count_replicate_self, hspaces] at hcount
    omega
  · intro hle
    rw [Nat.sub_eq_zero_of_le hle]
    simp

/-- Two fields agree when they have the same kind of padding, or none. -/
theorem layout_eq_iff (sign text : List Char8) (width : Int) (align : Bool) {pad kind : Char8}
    (hpad : pad = chr ' ' ∨ pad = chr '0') (hkind : kind = chr ' ' ∨ kind = chr '0') :
    layout sign text width align pad = layout sign text width align kind ↔
      align = true ∨ pad = kind ∨ width.toNat ≤ sign.length + text.length := by
  constructor
  · intro heq
    cases align with
    | true => exact .inl rfl
    | false =>
        right
        rcases hpad with rfl | rfl <;> rcases hkind with rfl | rfl
        · exact .inl rfl
        · exact .inr ((layout_zeros_eq_spaces_iff sign text width).mp heq.symm)
        · exact .inr ((layout_zeros_eq_spaces_iff sign text width).mp heq)
        · exact .inl rfl
  · rintro (rfl | rfl | hle)
    · rfl
    · rfl
    · simp [layout, Nat.sub_eq_zero_of_le hle]

/-! ## What the printers print -/

variable {d : Directive}

/-- The digits that the printers store, from the highest on. -/
theorem unsigned_body_reverse (d : Directive) (number : IntegerNumber) :
    (unsignedBody number.magnitude d.spec.precision number.base.val number.upper).reverse =
      d.isoDigits number := by
  show (unsignedBody number.magnitude d.precisionValue number.base.val number.upper).reverse = _
  rw [Directive.isoDigits]
  cases hnumeral : d.precision with
  | none =>
      have hnone : (-1 : Int) ≠ 0 ∨ number.magnitude ≠ 0 := .inl (by decide)
      rw [precision_value_none hnumeral, unsignedBody, if_pos hnone, zeroExtend]
      simp [unsignedChars, numeralText]
  | some numeral =>
      rw [precision_value_some hnumeral, unsignedBody]
      by_cases hzero : numeral.value = 0 ∧ number.magnitude = 0
      · simp only [if_pos hzero]
        rw [if_neg (by omega), List.reverse_nil]
      · simp only [if_neg hzero]
        rw [if_pos (by omega), zeroExtend, List.reverse_append, List.reverse_replicate]
        simp [unsignedChars, numeralText]

/-- The digits that the directive asks for, counted. -/
theorem length_iso_digits (d : Directive) (number : IntegerNumber) :
    (d.isoDigits number).length = d.digitCount number.base.val number.magnitude := by
  rw [← unsigned_body_reverse, List.length_reverse, length_unsigned_body, number_length_eq]

/-- The field of C as a layout. -/
theorem iso_field_eq_layout (number : IntegerNumber) (hwidth : d.width.value < 2 ^ 31) :
    d.isoField number = layout number.sign (d.isoDigits number) d.spec.width d.spec.align
      (if .zero ∈ d.flags ∧ d.precision = none then chr '0' else chr ' ') := by
  have hother : chr ' ' ≠ chr '0' := by decide
  have halign : d.spec.align = true ↔ Flag.minus ∈ d.flags := by
    simp [Directive.spec]
  rw [Directive.isoField, layout, (width_value_fits hwidth).2.2]
  by_cases hminus : Flag.minus ∈ d.flags
  · simp only [if_pos hminus, if_pos (halign.mpr hminus)]
  · simp only [if_neg hminus, if_neg (mt halign.mp hminus)]
    by_cases hzero : Flag.zero ∈ d.flags ∧ d.precision = none
    · simp only [if_pos hzero, if_true]
    · simp only [if_neg hzero, if_neg hother]

/-- The printers pad with zeros for the flag `0`, unless the precision is positive. -/
theorem pad_of_spec (d : Directive) :
    padOf d.spec.precision d.spec.pad =
      if .zero ∈ d.flags ∧ ∀ numeral ∈ d.precision, numeral.value = 0 then chr '0'
      else chr ' ' := by
  show padOf d.precisionValue (if .zero ∈ d.flags then chr '0' else chr ' ') = _
  rw [padOf]
  cases hnumeral : d.precision with
  | none =>
      rw [precision_value_none hnumeral]
      simp
  | some numeral =>
      rw [precision_value_some hnumeral]
      by_cases hzero : numeral.value = 0
      · rw [if_neg (by omega)]
        simp [hzero]
      · rw [if_pos (by omega)]
        simp [hzero]

/-- The two paddings differ where a precision is zero. -/
theorem pads_eq_iff (d : Directive) :
    d.spec.align = true ∨ padOf d.spec.precision d.spec.pad =
        (if .zero ∈ d.flags ∧ d.precision = none then chr '0' else chr ' ') ↔
      ¬ d.ZeroPadsPrecision := by
  have hother : chr ' ' ≠ chr '0' := by decide
  have halign : d.spec.align = true ↔ Flag.minus ∈ d.flags := by
    simp [Directive.spec]
  rw [pad_of_spec, Directive.ZeroPadsPrecision, halign]
  by_cases hminus : Flag.minus ∈ d.flags
  · simp [hminus]
  · by_cases hzero : Flag.zero ∈ d.flags
    · cases hnumeral : d.precision with
      | none => simp [hminus, hzero]
      | some numeral =>
          by_cases hvalue : numeral.value = 0 <;> simp [hminus, hzero, hvalue, hother.symm]
    · simp [hminus, hzero]

/-- The sign that `__print_int` prints. -/
theorem sign_of_spec (d : Directive) (n : Int) :
    signOf (prefixOf n d.spec.prefixChar) = isoSign d.flags n := by
  show signOf (prefixOf n (if .plus ∈ d.flags then chr '+'
    else if .space ∈ d.flags then chr ' ' else 0)) = isoSign d.flags n
  rw [prefixOf, isoSign]
  by_cases hn : n < 0
  · simp only [if_pos hn]
    rfl
  · simp only [if_neg hn]
    by_cases hplus : Flag.plus ∈ d.flags
    · simp only [if_pos hplus]
      rfl
    · simp only [if_neg hplus]
      by_cases hspace : Flag.space ∈ d.flags
      · simp only [if_pos hspace]
        rfl
      · simp only [if_neg hspace]
        rfl

/-- The digits of the number fit the buffer. -/
theorem number_fits (hprecision : ∀ numeral ∈ d.precision, numeral.value ≤ 31)
    {number : IntegerNumber}
    (hdigits : (Nat.digits number.base.val number.magnitude).length ≤ 31) :
    (unsignedBody number.magnitude d.spec.precision number.base.val number.upper).length < 32 := by
  rw [length_unsigned_body_lt_iff]
  exact ⟨precision_value_le hprecision,
    (Nat.digits_length_le_iff number.base.two_le _).mp hdigits⟩

/-- An integer conversion prints the number with the padding of its flags. -/
theorem integer_printed (hwidth : d.width.value < 2 ^ 31)
    (hprecision : ∀ numeral ∈ d.precision, numeral.value ≤ 31) {arg : Arg}
    {number : IntegerNumber} (hnumber : d.integerNumber arg = some number)
    (hleast : conversionOf d.conv = .signed → signedArg d.length arg.word ≠ -2 ^ 63)
    (hdigits : (Nat.digits number.base.val number.magnitude).length ≤ 31) :
    ∃ cnt, directivePrinted d.spec (conversionOf d.conv) arg =
      .ok ⟨layout number.sign (d.isoDigits number) d.spec.width d.spec.align
        (padOf d.spec.precision d.spec.pad), cnt⟩ := by
  have hroom := number_fits hprecision hdigits
  have hbody := unsigned_body_reverse d number
  obtain ⟨hlow, hhigh, -⟩ := width_value_fits hwidth
  rw [Directive.integerNumber] at hnumber
  cases hconv : conversionOf d.conv with
  | signed =>
      rw [hconv] at hnumber
      have hprinted := signed_directive_printed hprecision (hleast hconv)
      cases hnumber
      have hfield := put_int_body hroom hlow hhigh d.spec.align d.spec.prefixChar d.spec.pad
      have hint : (intBody (signedArg d.length arg.word) d.spec.precision).reverse = _ := hbody
      rw [intField, sign_of_spec, hint] at hfield
      rw [hprinted, Directive.signedPrinted, hint]
      exact ⟨_, congrArg Except.ok hfield⟩
  | unsigned base upper =>
      rw [hconv] at hnumber
      cases hnumber
      have hfield := put_unsigned_body hroom hlow hhigh d.spec.align d.spec.pad
      rw [unsignedField, hbody] at hfield
      have hprinted : directivePrinted d.spec (.unsigned base upper) arg = .ok _ := if_pos hroom
      have hunsigned : (unsignedBody (unsignedArg d.spec.length arg.word) d.spec.precision
          base.val upper).reverse = _ := hbody
      rw [hprinted, hunsigned]
      exact ⟨_, congrArg Except.ok hfield⟩
  | float | char | string | pointer | percent | unknown =>
      rw [hconv] at hnumber
      cases hnumber

/-- A directive with a number as the standard has it is a numeric one. -/
theorem integer_number_is_number {arg : Arg} {number : IntegerNumber}
    (h : d.integerNumber arg = some number) : (conversionOf d.conv).isNumber = true := by
  rw [Directive.integerNumber] at h
  cases hconv : conversionOf d.conv with
  | signed | unsigned => rfl
  | pointer => rfl
  | float | char | string | percent | unknown =>
      rw [hconv] at h
      cases h

/-- What a call with one integer conversion prints, the width being an `int`. -/
theorem proto_print_integer (hwidth : d.width.value < 2 ^ 31)
    (hprecision : ∀ numeral ∈ d.precision, numeral.value ≤ 31) (buff : StrBuff) {arg : Arg}
    (rest : List Arg) {number : IntegerNumber} (hnumber : d.integerNumber arg = some number)
    (hleast : conversionOf d.conv = .signed → signedArg d.length arg.word ≠ -2 ^ 63)
    (hdigits : (Nat.digits number.base.val number.magnitude).length ≤ 31) :
    ∃ after, protoPrint buff (chr '%' :: d.text ++ [0]) (arg :: rest) = .ok after ∧
      (after.out = d.isoField number ↔
        ¬ (d.ZeroPadsPrecision ∧ d.bareLength number < d.width.value)) := by
  obtain ⟨cnt, hprinted⟩ := integer_printed hwidth hprecision hnumber hleast hdigits
  have hcomputes := proto_print_number d (numbers_fit_of_le hwidth hprecision)
    (integer_number_is_number hnumber) buff arg rest
  rw [hprinted] at hcomputes
  obtain ⟨final, hprint⟩ := hcomputes
  have hkind : (if .zero ∈ d.flags ∧ d.precision = none then chr '0' else chr ' ') = chr ' ' ∨
      (if .zero ∈ d.flags ∧ d.precision = none then chr '0' else chr ' ') = chr '0' := by
    split
    · exact .inr rfl
    · exact .inl rfl
  have hbare : number.sign.length + (d.isoDigits number).length = d.bareLength number := by
    rw [Directive.bareLength, length_iso_digits]
  refine ⟨_, hprint, ?_⟩
  rw [iso_field_eq_layout number hwidth, PrintState.after, List.nil_append,
    layout_eq_iff _ _ _ _ (pad_of_cases (pad_spec d)) hkind, ← or_assoc, pads_eq_iff, hbare,
    (width_value_fits hwidth).2.2, ← not_lt]
  exact not_and_or.symm

/-- An integer conversion prints the field of C exactly when it does not pad with zeros next to a
precision of zero, unless there is nothing to pad, and an `int` holds the width. -/
theorem integer_directive_iso_iff (d : Directive)
    (hprecision : ∀ numeral ∈ d.precision, numeral.value ≤ 31) (buff : StrBuff) {arg : Arg}
    (rest : List Arg) {number : IntegerNumber} (hnumber : d.integerNumber arg = some number)
    (hleast : conversionOf d.conv = .signed → signedArg d.length arg.word ≠ -2 ^ 63)
    (hdigits : (Nat.digits number.base.val number.magnitude).length ≤ 31) :
    (∃ after, protoPrint buff (chr '%' :: d.text ++ [0]) (arg :: rest) = .ok after ∧
        after.out = d.isoField number) ↔
      ¬ (d.ZeroPadsPrecision ∧ d.bareLength number < d.width.value) ∧ d.width.value < 2 ^ 31 := by
  constructor
  · rintro ⟨after, hprint, hout⟩
    have hwidth := (numbers_fit_of_ok d hprint).1
    obtain ⟨other, hother, hiff⟩ :=
      proto_print_integer hwidth hprecision buff rest hnumber hleast hdigits
    obtain rfl := Except.ok.inj (hprint.symm.trans hother)
    exact ⟨hiff.mp hout, hwidth⟩
  · rintro ⟨hpads, hwidth⟩
    obtain ⟨after, hprint, hiff⟩ :=
      proto_print_integer hwidth hprecision buff rest hnumber hleast hdigits
    exact ⟨after, hprint, hiff.mpr hpads⟩

/-- `%05.0d` of 5. -/
theorem zero_precision_directive_field :
    (∃ after, protoPrint clearBuff (chr '%' :: zeroPrecisionDirective.text ++ [0]) [⟨5, []⟩] =
          .ok after ∧
        after.out = zeroPrecisionDirective.isoField ⟨[], 5, decimal, false⟩) ↔
      ¬ (zeroPrecisionDirective.ZeroPadsPrecision ∧
          zeroPrecisionDirective.bareLength ⟨[], 5, decimal, false⟩ <
            zeroPrecisionDirective.width.value) ∧
        zeroPrecisionDirective.width.value < 2 ^ 31 :=
  integer_directive_iso_iff zeroPrecisionDirective (by decide) clearBuff [] rfl (by decide)
    (by decide +kernel)

/-- `%05.0d` of 5 is padded with zeros, where C has spaces. -/
theorem zero_precision_misprinted :
    (protoPrint clearBuff (chr '%' :: zeroPrecisionDirective.text ++ [0]) [⟨5, []⟩]).map
        PrintState.out = .ok ("00005".toList.map chr) ∧
      (zeroPrecisionDirective.integerNumber ⟨5, []⟩).map zeroPrecisionDirective.isoField =
        some ("    5".toList.map chr) := by
  constructor
  · decide +kernel
  · decide +kernel

end SiStultum
