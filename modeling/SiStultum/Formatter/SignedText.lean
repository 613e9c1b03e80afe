import SiStultum.Formatter.Grammar

/-!
# What a signed conversion says

Without its spaces, the field of `%d` is a sign and digits that denote the argument
(`signed_directive_prints_iff`). The least `long long` is the exception: `__print_int` negates it,
which overflows.
-/

namespace SiStultum

open Signed Numerals

/-- The number that a text of decimal digits denotes, most significant digit first. -/
def decimalValue (text : List Char8) : Nat :=
  text.foldl (fun value ch => value * 10 + (ch.toNat - 48)) 0

/-- The characters other than spaces. -/
def withoutSpaces (text : List Char8) : List Char8 :=
  text.filter (· ≠ chr ' ')

/-- A sign and the number after it. -/
def SignedValue (sign digits : List Char8) (n : Int) : Prop :=
  sign = [chr '-'] ∧ n = -decimalValue digits ∨
    (sign = [] ∨ sign = [chr '+']) ∧ n = decimalValue digits

/-- An output is the number `n`: a sign and decimal digits, the sign of a number that is not
negative being printed only where `plus` asks for it. -/
structure PrintsNumber (out : List Char8) (n : Int) (plus : Prop) : Prop where
  number : ∃ sign digits, withoutSpaces out = sign ++ digits ∧
    (∀ ch ∈ digits, isDigit ch = true) ∧ SignedValue sign digits n
  minus_iff : chr '-' ∈ out ↔ n < 0
  plus_iff : chr '+' ∈ out ↔ 0 ≤ n ∧ plus

/-! ## The field around the digits -/

/-- The padding is as long as the width that is left. -/
theorem pad_loop_out (pad : Char8) (width cnt : Int) :
    (padLoop pad width cnt).out = List.replicate width.toNat pad := by
  induction hwidth : width.toNat generalizing width cnt with
  | zero =>
      rw [padLoop, if_neg (by omega)]
      rfl
  | succ k ih =>
      rw [padLoop, if_pos (by omega), List.replicate_succ]
      simp only [ih (width - 1) (int32 (cnt + 1)) (by omega)]

/-- The spaces of two texts are left out one after the other. -/
@[simp] theorem without_spaces_append (text more : List Char8) :
    withoutSpaces (text ++ more) = withoutSpaces text ++ withoutSpaces more :=
  List.filter_append ..

/-- The first character is left out if it is a space. -/
theorem without_spaces_cons (ch : Char8) (text : List Char8) :
    withoutSpaces (ch :: text) = withoutSpaces [ch] ++ withoutSpaces text :=
  without_spaces_append [ch] text

/-- There is nothing to leave out. -/
@[simp] theorem without_spaces_nil : withoutSpaces [] = [] :=
  rfl

/-- Of spaces nothing stays. -/
@[simp] theorem without_spaces_spaces (k : Nat) :
    withoutSpaces (List.replicate k (chr ' ')) = [] := by
  simp [withoutSpaces]

/-- Zeros stay. -/
@[simp] theorem without_spaces_zeros (k : Nat) :
    withoutSpaces (List.replicate k (chr '0')) = List.replicate k (chr '0') := by
  have hzero : chr '0' ≠ chr ' ' := by decide
  simp [withoutSpaces, hzero]

/-- All other characters stay. -/
theorem mem_without_spaces {text : List Char8} {ch : Char8} (hch : ch ≠ chr ' ') :
    ch ∈ withoutSpaces text ↔ ch ∈ text := by
  simp [withoutSpaces, hch]

/-- Without its spaces a field is a sign, zeros and a text, whatever its width. -/
theorem put_int_without_spaces (text : List Char8) (numLen : Nat) (width : Int) (align : Bool)
    (prefixChar : Char8) {pad : Char8} (hpad : pad = chr ' ' ∨ pad = chr '0') :
    ∃ zeros, withoutSpaces (putInt text numLen width align prefixChar pad).out =
      withoutSpaces (signOf prefixChar) ++ List.replicate zeros (chr '0') ++
        withoutSpaces text := by
  cases align with
  | true =>
      refine ⟨0, ?_⟩
      simp [putInt, pad_loop_out, signOf]
  | false =>
      rcases hpad with rfl | rfl
      · have hspace : chr ' ' ≠ chr '0' := by decide
        refine ⟨0, ?_⟩
        simp [putInt, pad_loop_out, signOf, hspace]
      · by_cases hsign : prefixChar = 0#8
        · refine ⟨(int32 (width - numLen)).toNat, ?_⟩
          simp [putInt, pad_loop_out, signOf, hsign]
        · refine ⟨(int32 (int32 (width - numLen) - 1)).toNat, ?_⟩
          simp [putInt, pad_loop_out, signOf, hsign]
          rw [without_spaces_cons, without_spaces_append, without_spaces_zeros]

/-! ## The digits -/

/-- The value of digits that are written from the last one on. -/
theorem decimal_value_reverse (text : List Char8) :
    decimalValue text.reverse = Nat.ofDigits 10 (text.map fun ch => ch.toNat - 48) := by
  rw [decimalValue, List.foldl_reverse]
  induction text with
  | nil => rfl
  | cons ch text ih =>
      rw [List.foldr_cons, ih, List.map_cons, Nat.ofDigits_cons]
      omega

/-- Leading zeros are allowed. -/
theorem decimal_value_zeros (zeros : Nat) (text : List Char8) :
    decimalValue (List.replicate zeros (chr '0') ++ text) = decimalValue text := by
  induction zeros with
  | zero => rfl
  | succ zeros ih =>
      rw [List.replicate_succ, List.cons_append, ← ih]
      rfl

/-- A decimal digit and its character. -/
theorem decimal_char :
    ∀ digit < 10, isDigit (digitChar false digit) = true ∧
      (digitChar false digit).toNat - 48 = digit := by
  decide

/-- What `__print_int` stores of a number: decimal digits of its magnitude. -/
theorem int_body_digits (n precision : Int) :
    (∀ ch ∈ intBody n precision, isDigit ch = true) ∧
      decimalValue (intBody n precision).reverse = n.natAbs := by
  by_cases hbody : precision ≠ 0 ∨ n ≠ 0
  · rw [int_body_eq hbody, decimal_value_reverse, zeroExtend, unsignedChars]
    constructor
    · intro ch hmem
      rcases List.mem_append.mp hmem with hchar | hzero
      · obtain ⟨digit, hdigit, rfl⟩ := List.mem_map.mp hchar
        exact (decimal_char digit (lt_base_of_mem_low_digits (by decide) hdigit)).1
      · rw [List.eq_of_mem_replicate hzero]
        decide
    · have hdigits : (lowDigits 10 n.natAbs).map
          ((fun ch : Char8 => ch.toNat - 48) ∘ digitChar false) = lowDigits 10 n.natAbs := by
        rw [List.map_congr_left, List.map_id]
        intro digit hdigit
        exact (decimal_char digit (lt_base_of_mem_low_digits (by decide) hdigit)).2
      rw [List.map_append, List.map_map, hdigits, List.map_replicate]
      have hzero : (chr '0').toNat - 48 = 0 := by decide
      rw [hzero, Nat.ofDigits_append_replicate_zero, of_digits_low_digits]
  -- precision 0 of the number 0 stores nothing
  · obtain ⟨rfl, rfl⟩ : precision = 0 ∧ n = 0 := by omega
    exact ⟨fun ch hmem => absurd hmem List.not_mem_nil, rfl⟩

/-! ## The sign -/

/-- The sign is the prefix character, if there is one. -/
theorem mem_sign_of {prefixChar ch : Char8} (hch : ch ≠ 0) :
    ch ∈ signOf prefixChar ↔ prefixChar = ch := by
  rw [signOf]
  split
  · rw [List.mem_singleton]
    exact eq_comm
  · next hnone =>
    rw [not_not] at hnone
    rw [hnone]
    exact ⟨fun h => absurd h List.not_mem_nil, fun h => absurd h.symm hch⟩

/-- The flags allow three prefix characters. -/
def FlagPrefix (prefixChar : Char8) : Prop :=
  prefixChar = 0 ∨ prefixChar = chr ' ' ∨ prefixChar = chr '+'

section

variable {n precision width : Int} {align : Bool} {prefixChar pad : Char8}

/-- The sign is `-` exactly for a negative number. -/
theorem prefix_of_minus_iff (hsign : FlagPrefix prefixChar) :
    prefixOf n prefixChar = chr '-' ↔ n < 0 := by
  rw [prefixOf]
  split
  · next hn => exact ⟨fun _ => hn, fun _ => rfl⟩
  · next hn =>
    refine ⟨fun hminus => ?_, fun hneg => absurd hneg hn⟩
    rcases hsign with rfl | rfl | rfl <;> exact absurd hminus (by decide)

/-- The sign is `+` exactly where the flag asks for it and the number is not negative. -/
theorem prefix_of_plus_iff : prefixOf n prefixChar = chr '+' ↔ 0 ≤ n ∧ prefixChar = chr '+' := by
  rw [prefixOf]
  split
  · next hn =>
    exact ⟨fun hplus => absurd hplus (by decide), fun hpos => absurd hpos.1 (by omega)⟩
  · next hn => exact ⟨fun hplus => ⟨by omega, hplus⟩, fun hplus => hplus.2⟩

/-- The sign that is printed, and what it says about the magnitude after it. -/
theorem signed_value_prefix_of (hsign : FlagPrefix prefixChar) {digits : List Char8}
    (hvalue : decimalValue digits = n.natAbs) :
    SignedValue (withoutSpaces (signOf (prefixOf n prefixChar))) digits n := by
  rw [SignedValue, hvalue, prefixOf]
  split
  · next hn => exact .inl ⟨by decide, by omega⟩
  · next hn =>
    refine .inr ⟨?_, by omega⟩
    rcases hsign with rfl | rfl | rfl
    · exact .inl rfl
    · exact .inl (by decide)
    · exact .inr (by decide)

/-- A digit is not a character of another kind. -/
theorem digit_ne {ch other : Char8} (hch : isDigit ch = true) (hother : isDigit other = false) :
    ch ≠ other := by
  rintro rfl
  rw [hch] at hother
  cases hother

/-- Digits stay. -/
theorem without_spaces_of_digits {text : List Char8} (h : ∀ ch ∈ text, isDigit ch = true) :
    withoutSpaces text = text := by
  rw [withoutSpaces, List.filter_eq_self]
  intro ch hmem
  have hne : ch ≠ chr ' ' := digit_ne (h ch hmem) (by decide)
  simp [hne]

/-- What is printed of a number is the number. -/
theorem put_int_prints (hsign : FlagPrefix prefixChar) (hpad : pad = chr ' ' ∨ pad = chr '0')
    (numLen : Nat) :
    PrintsNumber (putInt (intBody n precision).reverse numLen width align (prefixOf n prefixChar)
      (padOf precision pad)).out n (prefixChar = chr '+') := by
  obtain ⟨hdigits, hvalue⟩ := int_body_digits n precision
  obtain ⟨zeros, hout⟩ := put_int_without_spaces (intBody n precision).reverse numLen width align
    (prefixOf n prefixChar) (pad_of_cases hpad)
  generalize (putInt (intBody n precision).reverse numLen width align (prefixOf n prefixChar)
    (padOf precision pad)).out = out at hout ⊢
  have htext : ∀ ch ∈ (intBody n precision).reverse, isDigit ch = true := by
    intro ch hmem
    exact hdigits ch (List.mem_reverse.mp hmem)
  rw [without_spaces_of_digits htext, List.append_assoc] at hout
  have hall : ∀ ch ∈ List.replicate zeros (chr '0') ++ (intBody n precision).reverse,
      isDigit ch = true := by
    intro ch hmem
    rcases List.mem_append.mp hmem with hzero | hchar
    · rw [List.eq_of_mem_replicate hzero]
      decide
    · exact htext ch hchar
  -- apart from spaces and digits there is only the sign
  have hmem_out {ch : Char8} (hnul : ch ≠ 0) (hspace : ch ≠ chr ' ')
      (hdigit : isDigit ch = false) : ch ∈ out ↔ prefixOf n prefixChar = ch := by
    have hno : ch ∉ List.replicate zeros (chr '0') ++ (intBody n precision).reverse :=
      fun hmem => digit_ne (hall ch hmem) hdigit rfl
    rw [← mem_without_spaces hspace, hout, List.mem_append, or_iff_left hno,
      mem_without_spaces hspace, mem_sign_of hnul]
  constructor
  · refine ⟨_, _, hout, hall, signed_value_prefix_of hsign ?_⟩
    rw [decimal_value_zeros, hvalue]
  · rw [hmem_out (by decide) (by decide) (by decide), prefix_of_minus_iff hsign]
  · rw [hmem_out (by decide) (by decide) (by decide), prefix_of_plus_iff]

end

/-! ## The directive -/

/-- The flags ask for `+`, for a space or for nothing. -/
theorem flag_prefix_spec (d : Directive) : FlagPrefix d.spec.prefixChar := by
  simp only [Directive.spec, FlagPrefix]
  split
  · exact .inr (.inr rfl)
  · split
    · exact .inr (.inl rfl)
    · exact .inl rfl

/-- They ask for `+` exactly when it is among them. -/
theorem prefix_char_plus_iff (d : Directive) : d.spec.prefixChar = chr '+' ↔ .plus ∈ d.flags := by
  simp only [Directive.spec]
  split
  · next hplus => exact ⟨fun _ => hplus, fun _ => rfl⟩
  · next hplus =>
    refine ⟨fun h => ?_, fun h => absurd h hplus⟩
    split at h <;> exact absurd h (by decide)

/-- What `__print_int` prints for a directive. -/
def Directive.signedPrinted (d : Directive) (n : Int) : Printed :=
  putInt (intBody n d.spec.precision).reverse (intBody n d.spec.precision).length d.spec.width
    d.spec.align (prefixOf n d.spec.prefixChar) (padOf d.spec.precision d.spec.pad)

/-- A signed conversion with a precision of at most 31 does not overrun the buffer. -/
theorem signed_directive_printed {d : Directive}
    (hprecision : ∀ numeral ∈ d.precision, numeral.value ≤ 31) {arg : Arg}
    (hne : signedArg d.length arg.word ≠ -2 ^ 63) :
    directivePrinted d.spec .signed arg =
      .ok (d.signedPrinted (signedArg d.length arg.word)) := by
  obtain ⟨hlow, hhigh⟩ := signed_arg_range d.length arg.word
  have hroom : (intBody (signedArg d.length arg.word) d.spec.precision).length < 32 :=
    (length_int_body_lt_iff hlow hhigh d.spec.precision).mpr (precision_value_le hprecision)
  have hlength : d.spec.length = d.length := rfl
  rw [directivePrinted, intPrinted, hlength, if_neg (by omega), if_pos hroom]
  rfl

/-- A signed conversion with a precision of at most 31 prints its argument exactly when that is not
the least `long long`, whose negation overflows, and an `int` holds the width. -/
theorem signed_directive_prints_iff (d : Directive) (hconv : d.conv = chr 'd' ∨ d.conv = chr 'i')
    (hprecision : ∀ numeral ∈ d.precision, numeral.value ≤ 31) (buff : StrBuff) (arg : Arg)
    (rest : List Arg) :
    (∃ after, protoPrint buff (chr '%' :: d.text ++ [0]) (arg :: rest) = .ok after ∧
        PrintsNumber after.out (signedArg d.length arg.word) (.plus ∈ d.flags)) ↔
      signedArg d.length arg.word ≠ -2 ^ 63 ∧ d.width.value < 2 ^ 31 := by
  have hconversion : conversionOf d.conv = .signed := by rw [conversionOf, if_pos hconv]
  constructor
  · rintro ⟨after, hprint, _⟩
    have hfits := numbers_fit_of_ok d hprint
    have hcomputes := proto_print_number d hfits (by rw [hconversion]; rfl) buff arg rest
    refine ⟨fun hleast => ?_, hfits.1⟩
    obtain ⟨printed, hprinted⟩ := hcomputes.ok_iff.mp ⟨after, hprint⟩
    rw [hconversion, directive_printed_least hleast] at hprinted
    cases hprinted
  · rintro ⟨hne, hwidth⟩
    have hcomputes := proto_print_number d (numbers_fit_of_le hwidth hprecision)
      (by rw [hconversion]; rfl) buff arg rest
    rw [hconversion, signed_directive_printed hprecision hne] at hcomputes
    obtain ⟨final, hprint⟩ := hcomputes
    refine ⟨_, hprint, ?_⟩
    rw [← prefix_char_plus_iff]
    exact put_int_prints (flag_prefix_spec d) (pad_spec d) _

/-- `%+05d` of 42. -/
theorem plus_directive_prints :
    (∃ after, protoPrint clearBuff (chr '%' :: plusDirective.text ++ [0]) [⟨42, []⟩] = .ok after ∧
        PrintsNumber after.out (signedArg plusDirective.length 42) (.plus ∈ plusDirective.flags)) ↔
      signedArg plusDirective.length 42 ≠ -2 ^ 63 ∧ plusDirective.width.value < 2 ^ 31 :=
  signed_directive_prints_iff plusDirective (.inl rfl) (by decide) clearBuff ⟨42, []⟩ []

/-- `%ld` of the least `long`: the negation in `__print_int` overflows. -/
theorem least_long_overflows :
    signedArg .l 0x8000000000000000 = -2 ^ 63 ∧
      protoPrint clearBuff [chr '%', chr 'l', chr 'd', 0] [⟨0x8000000000000000, []⟩] =
        .error .overflow := by
  constructor
  · decide
  · decide +kernel

end SiStultum
