import SiStultum.Formatter.Count
import SiStultum.Formatter.Grammar
import SiStultum.Formatter.Reading

/-!
# What an unsigned conversion says

The field of `%b`, `%u`, `%o`, `%x` or `%X` is padding and digits that read back to the argument, as
the length modifier narrows it (`unsigned_directive_reads`). Wherever the directive stands in a
format, the length of the field is what it adds to the count.
-/

namespace SiStultum

open Numerals Signed

/-- The number of bits of an unsigned argument that the length modifier keeps. -/
def Length.bits : Length → Nat
  | .hh => 8
  | .h => 16
  | .none => 32
  | .l | .ll => 64

/-- The argument is cut to the size that the length modifier names. -/
theorem unsigned_arg_eq (length : Length) (word : BitVec 64) :
    unsignedArg length word = word.toNat % 2 ^ length.bits := by
  have hword := word.isLt
  cases length with
  | hh | h | none => exact BitVec.toNat_setWidth ..
  | l | ll => exact (Nat.mod_eq_of_lt hword).symm

/-- The number of digits that a directive asks for: those of the number, or more with a precision,
or none for 0 with precision 0. -/
def Directive.digitCount (d : Directive) (base n : Nat) : Nat :=
  match d.precision with
  | none => (lowDigits base n).length
  | some numeral =>
      if numeral.value = 0 ∧ n = 0 then 0 else max numeral.value (lowDigits base n).length

/-- A field that says `n`: padding on one side, and digits that read back to `n`. -/
structure UnsignedField (d : Directive) (base : DigitBase) (upper : Bool) (n : Nat)
    (field : List Char8) : Prop where
  digits : ∃ text fill pad, (pad = chr ' ' ∨ pad = chr '0') ∧
    field = (if .minus ∈ d.flags then text ++ List.replicate fill pad
      else List.replicate fill pad ++ text) ∧
    text.length = d.digitCount base.val n ∧ readDigits upper base.val text = some n
  length : field.length = max d.width.value (d.digitCount base.val n)

variable {d : Directive}

/-- A width below `2 ^ 31` is stored as it is. -/
theorem width_value_fits (h : d.width.value < 2 ^ 31) :
    -1 ≤ d.spec.width ∧ d.spec.width < 2 ^ 31 ∧ d.spec.width.toNat = d.width.value := by
  show -1 ≤ d.widthValue ∧ d.widthValue < 2 ^ 31 ∧ d.widthValue.toNat = d.width.value
  rw [Directive.widthValue]
  split
  · next hnone =>
    rw [hnone]
    decide
  · omega

/-- The digits stored are those that the directive asks for. -/
theorem number_length_eq (d : Directive) (base n : Nat) :
    numberLength base n d.spec.precision = d.digitCount base n := by
  show numberLength base n d.precisionValue = d.digitCount base n
  rw [numberLength, Directive.digitCount]
  cases hnumeral : d.precision with
  | none =>
      rw [precision_value_none hnumeral, if_neg (by omega)]
      simp
  | some numeral =>
      simp only [precision_value_some hnumeral, Int.natCast_eq_zero, Int.toNat_natCast,
        Nat.max_comm]

/-- Where `layout` puts the padding of a text without a sign. -/
theorem layout_unsigned (text : List Char8) (width : Int) (align : Bool) {pad : Char8}
    (hpad : pad = chr ' ' ∨ pad = chr '0') :
    ∃ fill other, (other = chr ' ' ∨ other = chr '0') ∧
      layout [] text width align pad =
        if align then text ++ List.replicate fill other else List.replicate fill other ++ text := by
  cases align with
  | true => exact ⟨_, _, .inl rfl, rfl⟩
  | false =>
      refine ⟨width.toNat - (0 + text.length), pad, hpad, ?_⟩
      simp only [layout, List.length_nil, Bool.false_eq_true, if_false, List.nil_append,
        List.append_nil, ite_self]

/-- An unsigned conversion prints a field that reads back to its argument, and adds the length of
the field to the count, for arguments of at most 31 digits, a precision of at most 31 and a width
that an `int` holds. So it does at the end of a format, and in front of whatever follows. -/
theorem unsigned_directive_reads (d : Directive) {base : DigitBase} {upper : Bool}
    (hconv : conversionOf d.conv = .unsigned base upper) (hwidth : d.width.value < 2 ^ 31)
    (hprecision : ∀ numeral ∈ d.precision, numeral.value ≤ 31) (s : PrintState) {arg : Arg}
    {rest : List Arg} (hargs : s.args = arg :: rest)
    (hdigits : (Nat.digits base.val (arg.word.toNat % 2 ^ d.length.bits)).length ≤ 31) :
    ∃ field buff,
      protoLoop (chr '%' :: (d.text ++ [0])) s =
        .ok ⟨s.out ++ field, int32 (s.ret + field.length), buff, rest⟩ ∧
      (∀ tail, protoLoop (chr '%' :: (d.text ++ tail)) s =
        protoLoop tail ⟨s.out ++ field, int32 (s.ret + field.length), buff, rest⟩) ∧
      UnsignedField d base upper (arg.word.toNat % 2 ^ d.length.bits) field := by
  rw [← unsigned_arg_eq] at hdigits ⊢
  obtain ⟨hlow, hhigh, hvalue⟩ := width_value_fits hwidth
  have hroom : (unsignedBody (unsignedArg d.length arg.word) d.spec.precision base.val
      upper).length < 32 := by
    rw [length_unsigned_body_lt_iff]
    exact ⟨precision_value_le hprecision, (Nat.digits_length_le_iff base.two_le _).mp hdigits⟩
  have hprinted : directivePrinted d.spec (conversionOf d.conv) (nextArg s.args) = .ok
      ⟨unsignedField (unsignedArg d.length arg.word) d.spec.width d.spec.precision d.spec.align
          d.spec.pad base.val upper,
        (unsignedField (unsignedArg d.length arg.word) d.spec.width d.spec.precision d.spec.align
          d.spec.pad base.val upper).length⟩ := by
    rw [hconv, hargs, ← put_unsigned_body hroom hlow hhigh]
    exact if_pos hroom
  obtain ⟨buff, hloop⟩ := proto_loop_number d (numbers_fit_of_le hwidth hprecision) (s := s)
    (by rw [hconv]; rfl) (by rw [hargs]; exact Nat.succ_pos _) hprinted
  simp only [PrintState.after, hargs, List.drop_succ_cons, List.drop_zero] at hloop
  have hnumber := number_length_eq d base.val (unsignedArg d.length arg.word)
  refine ⟨unsignedField (unsignedArg d.length arg.word) d.spec.width d.spec.precision d.spec.align
    d.spec.pad base.val upper, buff, ?_, hloop, ?_⟩
  · rw [hloop [0], protoLoop, if_pos rfl]
  constructor
  case digits =>
    obtain ⟨fill, pad, hpad, hlayout⟩ := layout_unsigned
      (unsignedBody (unsignedArg d.length arg.word) d.spec.precision base.val upper).reverse
      d.spec.width d.spec.align (pad_of_cases (pad_spec d))
    refine ⟨_, fill, pad, hpad, ?_, ?_, read_unsigned_body _ d.spec.precision upper⟩
    · rw [unsignedField, hlayout, Directive.spec]
      simp only [List.contains_iff_mem]
    · rw [List.length_reverse, length_unsigned_body, hnumber]
  case length =>
    rw [unsignedField, length_layout, List.length_reverse, length_unsigned_body, hnumber, hvalue,
      List.length_nil, Nat.zero_add]

/-- `%08lX` of `0xbeef`. -/
theorem upper_directive_reads :
    ∃ field buff,
      protoLoop (chr '%' :: (upperDirective.text ++ [0])) ⟨[], 0, clearBuff, [⟨0xbeef, []⟩]⟩ =
        .ok ⟨[] ++ field, int32 (0 + field.length), buff, []⟩ ∧
      (∀ tail, protoLoop (chr '%' :: (upperDirective.text ++ tail))
          ⟨[], 0, clearBuff, [⟨0xbeef, []⟩]⟩ =
        protoLoop tail ⟨[] ++ field, int32 (0 + field.length), buff, []⟩) ∧
      UnsignedField upperDirective hexadecimal true
        ((0xbeef : BitVec 64).toNat % 2 ^ upperDirective.length.bits) field :=
  unsigned_directive_reads upperDirective rfl (by decide) (by decide)
    ⟨[], 0, clearBuff, [⟨0xbeef, []⟩]⟩ rfl (by decide +kernel)

end SiStultum
