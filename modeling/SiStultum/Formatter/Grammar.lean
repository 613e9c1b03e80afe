import SiStultum.Formatter.Bounds

/-!
# The grammar of directives

A `Directive` is written out part by part: flags, width, precision, length modifier and conversion
character, each part as long as the characters allow. `read_directive_text` says that the parser
reads each part as the grammar means it, and `read_directive_sound` that it accepts nothing else.
-/

namespace SiStultum

open Signed

/-- A flag character. -/
inductive Flag where
  | minus | plus | space | zero
  deriving DecidableEq, Repr

def Flag.char : Flag → Char8
  | .minus => chr '-'
  | .plus => chr '+'
  | .space => chr ' '
  | .zero => chr '0'

/-- The flag characters. -/
def flagChars : List Char8 :=
  [Flag.minus, .plus, .space, .zero].map Flag.char

/-- The character of a decimal digit. -/
def numeralChar (digit : Fin 10) : Char8 :=
  BitVec.ofNat 8 (48 + digit.val)

/-- The digit characters. -/
def numeralChars : List Char8 :=
  (List.finRange 10).map numeralChar

/-- A numeral in a format, most significant digit first. -/
abbrev Numeral := List (Fin 10)

def Numeral.text (numeral : Numeral) : List Char8 :=
  numeral.map numeralChar

/-- The number that a numeral denotes. -/
def Numeral.value (numeral : Numeral) : Nat :=
  numeral.foldl (fun value digit => value * 10 + digit.val) 0

def Length.text : Length → List Char8
  | .hh => [chr 'h', chr 'h']
  | .h => [chr 'h']
  | .none => []
  | .l => [chr 'l']
  | .ll => [chr 'l', chr 'l']

/-- The precision in a format. -/
def precisionText : Option Numeral → List Char8
  | none => []
  | some numeral => chr '.' :: numeral.text

/-- A conversion character ends the directive: it is not the NUL, and it does not go on with one of
the parts before it. -/
def EndsDirective (width : Numeral) (precision : Option Numeral) (length : Length)
    (conv : Char8) : Prop :=
  conv ≠ 0 ∧ (length = .h → conv ≠ chr 'h') ∧ (length = .l → conv ≠ chr 'l') ∧
    (length = .none → conv ≠ chr 'h' ∧ conv ≠ chr 'l' ∧ conv ∉ numeralChars ∧
      (precision = none → conv ≠ chr '.' ∧ (width = [] → conv ∉ flagChars)))

instance (width : Numeral) (precision : Option Numeral) (length : Length) (conv : Char8) :
    Decidable (EndsDirective width precision length conv) :=
  inferInstanceAs (Decidable (_ ∧ _))

/-- A directive. The width is absent or starts with a digit other than zero, which would be a
flag. -/
structure Directive where
  flags : List Flag
  width : Numeral
  precision : Option Numeral
  length : Length
  conv : Char8
  width_head : ∀ digit ∈ width.head?, digit ≠ 0
  conv_ends : EndsDirective width precision length conv

/-- The directive in the format, after the `%`. -/
def Directive.text (d : Directive) : List Char8 :=
  d.flags.map Flag.char ++
    (d.width.text ++ (precisionText d.precision ++ (d.length.text ++ [d.conv])))

/-- An `int` holds the width and the precision. -/
def Directive.NumbersFit (d : Directive) : Prop :=
  d.width.value < 2 ^ 31 ∧ ∀ numeral ∈ d.precision, numeral.value < 2 ^ 31

instance (d : Directive) : Decidable d.NumbersFit :=
  inferInstanceAs (Decidable (_ ∧ _))

/-- The width, -1 when there is none. -/
def Directive.widthValue (d : Directive) : Int :=
  if d.width = [] then -1 else d.width.value

/-- The precision, -1 when there is none. -/
def Directive.precisionValue (d : Directive) : Int :=
  match d.precision with
  | none => -1
  | some numeral => numeral.value

/-- A directive without a precision has the precision -1. -/
theorem precision_value_none {d : Directive} (h : d.precision = none) : d.precisionValue = -1 := by
  rw [Directive.precisionValue, h]

/-- The precision of a directive is the value of its numeral. -/
theorem precision_value_some {d : Directive} {numeral : Numeral} (h : d.precision = some numeral) :
    d.precisionValue = numeral.value := by
  rw [Directive.precisionValue, h]

/-- What the flags, the width, the precision and the modifier mean. -/
def Directive.spec (d : Directive) : Spec where
  align := d.flags.contains .minus
  prefixChar := if .plus ∈ d.flags then chr '+' else if .space ∈ d.flags then chr ' ' else 0
  pad := if .zero ∈ d.flags then chr '0' else chr ' '
  width := d.widthValue
  precision := d.precisionValue
  length := d.length

/-- Fields are padded with spaces or with zeros. -/
theorem pad_spec (d : Directive) : d.spec.pad = chr ' ' ∨ d.spec.pad = chr '0' := by
  simp only [Directive.spec]
  split
  · exact .inr rfl
  · exact .inl rfl

/-- A bound for the numeral is a bound for the precision. -/
theorem precision_value_le {d : Directive}
    (h : ∀ numeral ∈ d.precision, numeral.value ≤ 31) : d.spec.precision ≤ 31 := by
  show d.precisionValue ≤ 31
  cases hprecision : d.precision with
  | none =>
      rw [precision_value_none hprecision]
      decide
  | some numeral =>
      rw [precision_value_some hprecision]
      exact Int.ofNat_le.mpr (h numeral hprecision)

/-- A width and a precision in range. -/
theorem numbers_fit_of_le {d : Directive} (hwidth : d.width.value < 2 ^ 31)
    (h : ∀ numeral ∈ d.precision, numeral.value ≤ 31) : d.NumbersFit :=
  ⟨hwidth, fun numeral hnumeral => (h numeral hnumeral).trans_lt (by decide)⟩

/-! ## Flags -/

/-- The characters of the flags are flags of the parser. -/
theorem is_fmtflag_char (flag : Flag) : isFmtflag flag.char = true := by
  cases flag <;> decide

/-- The flags one after the other. -/
def setFlags (spec : Spec) (flags : List Flag) : Spec :=
  flags.foldl (fun spec flag => setFlag spec flag.char) spec

/-- The parser reads flags until another character. -/
theorem read_flag_loop_eq (flags : List Flag) {stop : Char8} (hstop : isFmtflag stop = false)
    (rest : List Char8) (spec : Spec) {ch : Char8} {format : List Char8}
    (h : ch :: format = flags.map Flag.char ++ stop :: rest) :
    readFlagLoop spec ch format = .ok ⟨setFlags spec flags, stop, rest⟩ := by
  induction flags generalizing spec ch format with
  | nil =>
      obtain ⟨rfl, rfl⟩ := List.cons.inj h
      cases format <;> simp [readFlagLoop, hstop, setFlags]
  | cons flag flags ih =>
      obtain ⟨rfl, hformat⟩ := List.cons.inj h
      cases format with
      | nil => cases flags <;> cases hformat
      | cons next format =>
          rw [readFlagLoop, if_pos (is_fmtflag_char flag)]
          exact ih (setFlag spec flag.char) hformat

/-- `-` aligns the field to the left. -/
theorem set_flag_minus (spec : Spec) :
    setFlag spec Flag.minus.char = { spec with align := true } :=
  rfl

/-- `+` asks for a sign. -/
theorem set_flag_plus (spec : Spec) :
    setFlag spec Flag.plus.char = { spec with prefixChar := chr '+' } :=
  rfl

/-- A space asks for a space in the place of the sign, if there is no `+`. -/
theorem set_flag_space (spec : Spec) :
    setFlag spec Flag.space.char =
      if spec.prefixChar ≠ chr '+' then { spec with prefixChar := chr ' ' } else spec :=
  rfl

/-- `0` pads with zeros. -/
theorem set_flag_zero (spec : Spec) :
    setFlag spec Flag.zero.char = { spec with pad := chr '0' } :=
  rfl

/-- What a sequence of flags sets. A `+` overrides the spaces before and after it. -/
theorem set_flags_eq (flags : List Flag) (spec : Spec) :
    setFlags spec flags = { spec with
      align := spec.align || flags.contains .minus
      prefixChar := if .plus ∈ flags then chr '+'
        else if .space ∈ flags ∧ spec.prefixChar ≠ chr '+' then chr ' ' else spec.prefixChar
      pad := if .zero ∈ flags then chr '0' else spec.pad } := by
  induction flags generalizing spec with
  | nil => simp [setFlags]
  | cons flag flags ih =>
      have hstep : setFlags spec (flag :: flags) = setFlags (setFlag spec flag.char) flags := rfl
      rw [hstep, ih]
      cases flag with
      | minus =>
          rw [set_flag_minus]
          by_cases hplus : Flag.plus ∈ flags <;> by_cases hspace : Flag.space ∈ flags <;>
            simp [hplus, hspace]
      | plus =>
          rw [set_flag_plus]
          by_cases hplus : Flag.plus ∈ flags <;> simp [hplus]
      | space =>
          rw [set_flag_space]
          by_cases hsign : spec.prefixChar = chr '+'
          · simp [hsign]
          · have hspace : chr ' ' ≠ chr '+' := by decide
            by_cases hplus : Flag.plus ∈ flags <;> simp [hsign, hplus, hspace]
      | zero =>
          rw [set_flag_zero]
          by_cases hzero : Flag.zero ∈ flags <;> simp [hzero]

/-! ## Numbers -/

/-- A digit of a numeral is a digit for the parser. -/
theorem numeral_char_facts (digit : Fin 10) :
    isDigit (numeralChar digit) = true ∧ chint (numeralChar digit) = digit.val := by
  revert digit
  decide

/-- The digits of the parser are those of numerals. -/
theorem mem_numeral_chars_iff (ch : Char8) : ch ∈ numeralChars ↔ isDigit ch = true := by
  revert ch
  decide

/-- The flags of the parser are those of directives. -/
theorem mem_flag_chars_iff (ch : Char8) : ch ∈ flagChars ↔ isFmtflag ch = true :=
  List.contains_iff_mem.symm

/-- The number denoted by more digits after `start`. -/
def Numeral.valueFrom (start : Nat) (numeral : Numeral) : Nat :=
  numeral.foldl (fun value digit => value * 10 + digit.val) start

/-- More digits make no number smaller. -/
theorem le_value_from (numeral : Numeral) (start : Nat) :
    start ≤ numeral.valueFrom start := by
  induction numeral generalizing start with
  | nil => exact Nat.le_refl start
  | cons digit numeral ih =>
      have hrest := ih (start * 10 + digit.val)
      rw [Numeral.valueFrom] at hrest
      rw [Numeral.valueFrom, List.foldl_cons]
      omega

/-- `__read_int` reads a numeral up to the first character that is not a digit, as long as an `int`
holds the number. -/
theorem read_int_eq (numeral : Numeral) {stop : Char8} (hstop : isDigit stop = false)
    (rest : List Char8) {start : Nat} (hstart : start < 2 ^ 31) :
    readInt (numeral.text ++ stop :: rest) start =
      if numeral.valueFrom start < 2 ^ 31 then .ok (numeral.valueFrom start, stop :: rest)
      else .error .overflow := by
  induction numeral generalizing start with
  | nil =>
      have hvalue : Numeral.valueFrom start [] = start := rfl
      rw [hvalue, if_pos hstart, Numeral.text, List.map_nil, List.nil_append, readInt,
        if_neg (by rw [hstop]; exact Bool.false_ne_true)]
  | cons digit numeral ih =>
      obtain ⟨hdigit, hchint⟩ := numeral_char_facts digit
      have hvalue : Numeral.valueFrom start (digit :: numeral) =
          Numeral.valueFrom (start * 10 + digit.val) numeral := rfl
      have hnext : (start : Int) * 10 + digit.val = (start * 10 + digit.val : Nat) := by omega
      have hle : start * 10 + digit.val ≤ Numeral.valueFrom (start * 10 + digit.val) numeral :=
        le_value_from numeral _
      rw [Numeral.text, List.map_cons, List.cons_append, readInt, if_pos hdigit, hchint, hvalue,
        hnext, checkInt]
      by_cases hfits : start * 10 + digit.val < 2 ^ 31
      · have hint : FitsInt (start * 10 + digit.val : Nat) := ⟨by omega, by omega⟩
        rw [if_pos hint, ok_bind]
        exact ih hfits
      · have hint : ¬ FitsInt (start * 10 + digit.val : Nat) := fun h => by
          have := h.2
          omega
        rw [if_neg hint, error_bind, if_neg (by omega)]

/-- `__read_int` and the character after the number. -/
theorem read_number_eq (numeral : Numeral) {stop : Char8} (hstop : isDigit stop = false)
    (rest : List Char8) :
    readNumber (numeral.text ++ stop :: rest) =
      if numeral.value < 2 ^ 31 then .ok (numeral.value, stop, rest) else .error .overflow := by
  have hread := read_int_eq numeral hstop rest (show 0 < 2 ^ 31 by decide)
  have hvalue : numeral.valueFrom 0 = numeral.value := rfl
  rw [hvalue] at hread
  rw [readNumber]
  split
  · next hfits =>
    rw [if_pos hfits] at hread
    exact congrArg (· >>= _) hread
  · next hlarge =>
    rw [if_neg hlarge] at hread
    exact congrArg (· >>= _) hread

/-! ## The parts of a directive -/

variable (d : Directive)

/-- From the length modifier on. The first character does not go on with the parts before it. -/
theorem length_part_cons (more : List Char8) :
    ∃ ch rest, d.length.text ++ d.conv :: more = ch :: rest ∧ isDigit ch = false ∧
      (d.precision = none → ch ≠ chr '.' ∧ (d.width = [] → isFmtflag ch = false)) := by
  obtain ⟨_, _, _, hends⟩ := d.conv_ends
  cases hlength : d.length with
  | none =>
      obtain ⟨_, _, hdigit, hpoint⟩ := hends hlength
      refine ⟨d.conv, more, rfl, Bool.eq_false_iff.mpr ?_, fun hnone => ?_⟩
      · rwa [Ne, ← mem_numeral_chars_iff]
      · obtain ⟨hne, hflag⟩ := hpoint hnone
        refine ⟨hne, fun hwidth => Bool.eq_false_iff.mpr ?_⟩
        rw [Ne, ← mem_flag_chars_iff]
        exact hflag hwidth
  | h | hh => exact ⟨chr 'h', _, rfl, by decide, fun _ => ⟨by decide, fun _ => by decide⟩⟩
  | l | ll => exact ⟨chr 'l', _, rfl, by decide, fun _ => ⟨by decide, fun _ => by decide⟩⟩

/-- From the precision on. -/
theorem precision_part_cons (more : List Char8) :
    ∃ ch rest, precisionText d.precision ++ (d.length.text ++ d.conv :: more) = ch :: rest ∧
      isDigit ch = false ∧ (d.width = [] → isFmtflag ch = false) := by
  obtain ⟨ch, rest, hcons, hdigit, hpoint⟩ := length_part_cons d more
  cases hprecision : d.precision with
  | none => exact ⟨ch, rest, hcons, hdigit, (hpoint hprecision).2⟩
  | some numeral => exact ⟨chr '.', _, rfl, by decide, fun _ => by decide⟩

/-- From the width on. -/
theorem width_part_cons (more : List Char8) :
    ∃ ch rest, d.width.text ++
        (precisionText d.precision ++ (d.length.text ++ d.conv :: more)) = ch :: rest ∧
      isFmtflag ch = false := by
  obtain ⟨ch, rest, hcons, _, hflag⟩ := precision_part_cons d more
  have hhead := d.width_head
  cases hwidth : d.width with
  | nil => exact ⟨ch, rest, hcons, hflag hwidth⟩
  | cons digit numeral =>
      refine ⟨_, _, rfl, ?_⟩
      have hdigit : digit ≠ 0 := hhead digit (by rw [hwidth]; rfl)
      revert hdigit
      generalize digit = other
      revert other
      decide

/-- The length modifier and the conversion character after it. -/
theorem read_length_eq (spec : Spec) {ch : Char8} {format more : List Char8}
    (h : ch :: format = d.length.text ++ d.conv :: more) (hspec : spec.length = .none) :
    readLength ⟨spec, ch, format⟩ = .ok ⟨{ spec with length := d.length }, d.conv, more⟩ := by
  obtain ⟨_, hh, hl, hnone⟩ := d.conv_ends
  cases hlength : d.length with
  | none =>
      obtain ⟨hne, hnel, _⟩ := hnone hlength
      rw [hlength] at h
      obtain ⟨rfl, rfl⟩ := List.cons.inj h
      rw [readLength, if_neg (not_or.mpr ⟨hne, hnel⟩), ← hspec]
      rfl
  | h =>
      rw [hlength] at h
      obtain ⟨rfl, hformat⟩ := List.cons.inj h
      have hdouble : readDouble .h (chr 'h') (d.conv :: more) = .ok (.h, d.conv :: more) := by
        rw [readDouble, if_neg (hh hlength)]
      rw [readLength, if_pos (Or.inl rfl), hformat]
      exact congrArg (· >>= _) hdouble
  | l =>
      rw [hlength] at h
      obtain ⟨rfl, hformat⟩ := List.cons.inj h
      have hdouble : readDouble .l (chr 'l') (d.conv :: more) = .ok (.l, d.conv :: more) := by
        rw [readDouble, if_neg (hl hlength)]
      rw [readLength, if_pos (Or.inr rfl), hformat]
      exact congrArg (· >>= _) hdouble
  | hh | ll =>
      rw [hlength] at h
      obtain ⟨rfl, rfl⟩ := List.cons.inj h
      rfl

/-- An `int` holds the precision. -/
def Directive.PrecisionFits : Prop :=
  ∀ numeral ∈ d.precision, numeral.value < 2 ^ 31

instance : Decidable d.PrecisionFits :=
  inferInstanceAs (Decidable (∀ _ ∈ _, _))

/-- The precision, and the character after it. -/
theorem read_precision_eq (spec : Spec) {ch : Char8} {format more : List Char8}
    (h : ch :: format = precisionText d.precision ++ (d.length.text ++ d.conv :: more))
    (hspec : spec.precision = -1) :
    ∃ next rest, next :: rest = d.length.text ++ d.conv :: more ∧
      readPrecision ⟨spec, ch, format⟩ =
        if d.PrecisionFits then
          .ok ⟨{ spec with precision := d.precisionValue }, next, rest⟩
        else .error .overflow := by
  obtain ⟨next, rest, hcons, hdigit, hpoint⟩ := length_part_cons d more
  refine ⟨next, rest, hcons.symm, ?_⟩
  rw [hcons] at h
  cases hprecision : d.precision with
  | none =>
      have hfits : d.PrecisionFits := fun numeral hnumeral => by
        rw [hprecision] at hnumeral
        cases hnumeral
      rw [hprecision] at h
      obtain ⟨rfl, rfl⟩ := List.cons.inj h
      rw [readPrecision, if_neg (hpoint hprecision).1, if_pos hfits, Directive.precisionValue,
        hprecision, ← hspec]
      rfl
  | some numeral =>
      have hfits : d.PrecisionFits ↔ numeral.value < 2 ^ 31 := by
        unfold Directive.PrecisionFits
        rw [hprecision]
        simp
      rw [hprecision] at h
      obtain ⟨rfl, rfl⟩ := List.cons.inj h
      have hread : readNumber (numeral.text.append (next :: rest)) = _ :=
        read_number_eq numeral hdigit rest
      simp only [readPrecision, if_pos, hread, hfits, Directive.precisionValue, hprecision]
      split <;> rfl

/-- The width, and the character after it. -/
theorem read_width_eq (spec : Spec) {ch : Char8} {format more : List Char8}
    (h : ch :: format =
      d.width.text ++ (precisionText d.precision ++ (d.length.text ++ d.conv :: more)))
    (hspec : spec.width = -1) :
    ∃ next rest,
      next :: rest = precisionText d.precision ++ (d.length.text ++ d.conv :: more) ∧
      readWidth ⟨spec, ch, format⟩ =
        if d.width.value < 2 ^ 31 then .ok ⟨{ spec with width := d.widthValue }, next, rest⟩
        else .error .overflow := by
  obtain ⟨next, rest, hcons, hdigit, _⟩ := precision_part_cons d more
  refine ⟨next, rest, hcons.symm, ?_⟩
  rw [hcons] at h
  rw [Directive.widthValue]
  cases hwidth : d.width with
  | nil =>
      rw [hwidth] at h
      obtain ⟨rfl, rfl⟩ := List.cons.inj h
      have hzero : Numeral.value [] < 2 ^ 31 := by decide
      rw [readWidth, if_neg (by rw [hdigit]; exact Bool.false_ne_true), if_pos hzero, if_pos rfl,
        ← hspec]
      rfl
  | cons digit numeral =>
      rw [hwidth] at h
      have hread : isDigit ch = true := by
        obtain ⟨rfl, _⟩ := List.cons.inj h
        exact (numeral_char_facts digit).1
      rw [readWidth, if_pos hread, if_neg (List.cons_ne_nil _ _)]
      simp only [h, read_number_eq (digit :: numeral) hdigit rest]
      split <;> rfl

/-- The parts of a directive in front of the rest of the format. -/
theorem directive_text_append (more : List Char8) :
    d.text ++ more = d.flags.map Flag.char ++
      (d.width.text ++ (precisionText d.precision ++ (d.length.text ++ d.conv :: more))) := by
  simp only [Directive.text, List.append_assoc, List.singleton_append]

/-- The parser reads a directive as the grammar means it, unless one of its numbers overflows. -/
theorem read_directive_text (more : List Char8) :
    readDirective (d.text ++ more) =
      if d.NumbersFit then .ok ⟨d.spec, d.conv, more⟩ else .error .overflow := by
  obtain ⟨stop, rest, hflags, hstop⟩ := width_part_cons d more
  obtain ⟨ch, format, htext⟩ : ∃ ch format, d.text ++ more = ch :: format := by
    rw [directive_text_append, hflags]
    cases d.flags <;> exact ⟨_, _, rfl⟩
  have hloop := read_flag_loop_eq d.flags hstop rest {}
    (by rw [← htext, directive_text_append, hflags])
  obtain ⟨next, tail, hwidth, hread_width⟩ := read_width_eq d (setFlags {} d.flags)
    hflags.symm (by rw [set_flags_eq])
  obtain ⟨last, final, hprecision, hread_precision⟩ := read_precision_eq d
    { setFlags {} d.flags with width := d.widthValue } hwidth (by rw [set_flags_eq])
  have hread_length := read_length_eq d
    { setFlags {} d.flags with width := d.widthValue, precision := d.precisionValue } hprecision
    (by rw [set_flags_eq])
  have hspec : { setFlags {} d.flags with
      width := d.widthValue, precision := d.precisionValue, length := d.length } = d.spec := by
    have hnone : ¬ 0#8 = chr '+' := by decide
    rw [set_flags_eq]
    simp [Directive.spec, hnone]
  rw [readDirective, htext]
  simp only [nextChar, readFlags, ok_bind, hloop, hread_width]
  by_cases hfits : d.width.value < 2 ^ 31
  · simp only [if_pos hfits, ok_bind, hread_precision]
    by_cases hnumber : d.PrecisionFits
    · rw [if_pos hnumber, if_pos ⟨hfits, hnumber⟩, ok_bind, hread_length, hspec]
    · rw [if_neg hnumber, if_neg fun h => hnumber h.2, error_bind]
  · rw [if_neg hfits, if_neg fun h => hfits h.1, error_bind]

/-- A directive as a piece of a complete format. -/
def Directive.complete (hfits : d.NumbersFit) : CompleteDirective where
  text := d.text
  spec := d.spec
  ch := d.conv
  reads := by
    have hread := read_directive_text d []
    rwa [List.append_nil, if_pos hfits] at hread
  not_nul := d.conv_ends.1

/-- A conversion of a number inside a format: the loop goes on behind it, from the state after the
number. -/
theorem proto_loop_number (hfits : d.NumbersFit) {s : PrintState}
    (hnumber : (conversionOf d.conv).isNumber = true) (hargs : 1 ≤ s.args.length)
    {printed : Printed}
    (h : directivePrinted d.spec (conversionOf d.conv) (nextArg s.args) = .ok printed) :
    ∃ buff, ∀ tail, protoLoop (chr '%' :: (d.text ++ tail)) s =
      protoLoop tail (s.after printed buff 1) := by
  have hcomputes := print_number_computes d.spec hnumber hargs
  rw [h] at hcomputes
  obtain ⟨buff, hprint⟩ := hcomputes
  refine ⟨buff, fun tail => ?_⟩
  have hloop := proto_loop_piece (.directive (d.complete hfits)) tail s
  have hpiece : printPiece s (.directive (d.complete hfits)) = .ok (s.after printed buff 1) :=
    hprint
  rw [hpiece, ok_bind] at hloop
  exact hloop

/-- A directive whose width or precision overflows ends the call. -/
theorem proto_loop_wide (hwide : ¬ d.NumbersFit) (tail : List Char8) (s : PrintState) :
    protoLoop (chr '%' :: (d.text ++ tail)) s = .error .overflow := by
  rw [protoLoop, if_neg (by decide), if_pos rfl]
  split
  · next fault hread =>
    rw [read_directive_text, if_neg hwide] at hread
    exact congrArg Except.error (Except.error.inj hread).symm
  · next r hread =>
    rw [read_directive_text, if_neg hwide] at hread
    cases hread

/-- A call with one conversion of a number computes what is printed of its argument. -/
theorem proto_print_number (hfits : d.NumbersFit)
    (hnumber : (conversionOf d.conv).isNumber = true) (buff : StrBuff) (arg : Arg)
    (rest : List Arg) :
    Computes (protoPrint buff (chr '%' :: d.text ++ [0]) (arg :: rest))
      (directivePrinted d.spec (conversionOf d.conv) arg) ⟨[], 0, buff, arg :: rest⟩ 1 := by
  have hcomputes := print_number_computes d.spec hnumber (s := ⟨[], 0, buff, arg :: rest⟩)
    (Nat.succ_pos _)
  have hloop := proto_loop_piece (.directive (d.complete hfits)) [0] ⟨[], 0, buff, arg :: rest⟩
  have hprint : protoPrint buff (chr '%' :: d.text ++ [0]) (arg :: rest) =
      printDirective d.spec (conversionOf d.conv) ⟨[], 0, buff, arg :: rest⟩ >>=
        protoLoop [0] := hloop
  have hnext : nextArg (arg :: rest) = arg := rfl
  rw [hnext] at hcomputes
  rw [hprint]
  cases hmeaning : directivePrinted d.spec (conversionOf d.conv) arg with
  | error fault =>
      rw [hmeaning] at hcomputes
      have hresult : printDirective d.spec (conversionOf d.conv) ⟨[], 0, buff, arg :: rest⟩ =
        .error fault := hcomputes
      rw [hresult]
      rfl
  | ok printed =>
      rw [hmeaning] at hcomputes
      obtain ⟨after, hresult⟩ := hcomputes
      refine ⟨after, ?_⟩
      rw [hresult, ok_bind, protoLoop, if_pos rfl]

/-- A call with one directive ends only if an `int` holds the width and the precision. -/
theorem numbers_fit_of_ok {buff : StrBuff} {args : List Arg} {after : PrintState}
    (h : protoPrint buff (chr '%' :: d.text ++ [0]) args = .ok after) : d.NumbersFit := by
  by_contra hwide
  have hprint : protoPrint buff (chr '%' :: d.text ++ [0]) args = .error .overflow :=
    proto_loop_wide d hwide [0] ⟨[], 0, buff, args⟩
  rw [hprint] at h
  cases h

/-! ## The parser accepts nothing else -/

/-- A text of digits is a numeral. -/
theorem exists_numeral {text : List Char8} (h : ∀ ch ∈ text, isDigit ch = true) :
    ∃ numeral : Numeral, text = numeral.text := by
  induction text with
  | nil => exact ⟨[], rfl⟩
  | cons ch text ih =>
      obtain ⟨hch, hrest⟩ := List.forall_mem_cons.mp h
      obtain ⟨numeral, rfl⟩ := ih hrest
      rw [← mem_numeral_chars_iff] at hch
      obtain ⟨digit, _, rfl⟩ := List.mem_map.mp hch
      exact ⟨digit :: numeral, rfl⟩

/-- The parser skips flags up to another character. -/
theorem read_flags_sound {r after : Reader} (h : readFlags r = .ok after) :
    ∃ flags : List Flag, r.ch :: r.format = flags.map Flag.char ++ after.ch :: after.format ∧
      isFmtflag after.ch = false := by
  obtain ⟨spec, ch, format⟩ := r
  rw [readFlags] at h
  simp only at h ⊢
  induction format generalizing spec ch with
  | nil =>
      rw [readFlagLoop] at h
      split at h
      · cases h
      · next hflag =>
        cases h
        exact ⟨[], rfl, Bool.eq_false_iff.mpr hflag⟩
  | cons next format ih =>
      rw [readFlagLoop] at h
      split at h
      · next hflag =>
        obtain ⟨flags, hflags, hstop⟩ := ih _ _ h
        rw [← mem_flag_chars_iff] at hflag
        obtain ⟨flag, _, rfl⟩ := List.mem_map.mp hflag
        exact ⟨flag :: flags, congrArg (flag.char :: ·) hflags, hstop⟩
      · next hflag =>
        cases h
        exact ⟨[], rfl, Bool.eq_false_iff.mpr hflag⟩

/-- The width that is read starts with a digit that is no flag. -/
theorem read_width_sound {r after : Reader} (hflag : isFmtflag r.ch = false)
    (h : readWidth r = .ok after) :
    ∃ width : Numeral, r.ch :: r.format = width.text ++ after.ch :: after.format ∧
      (∀ digit ∈ width.head?, digit ≠ 0) ∧ isDigit after.ch = false ∧
      (width = [] → isFmtflag after.ch = false) := by
  rw [readWidth] at h
  split at h
  · next hdigit =>
    obtain ⟨⟨value, ch, format⟩, hnumber, h⟩ := ok_of_bind h
    cases h
    obtain ⟨text, hp, hstop, hdigits, -⟩ := read_number_reads hnumber
    obtain ⟨numeral, rfl⟩ := exists_numeral hdigits
    cases numeral with
    | nil =>
        obtain ⟨rfl, _⟩ := List.cons.inj hp
        exact absurd hdigit hstop
    | cons digit numeral =>
        refine ⟨digit :: numeral, hp, ?_, Bool.eq_false_iff.mpr hstop, by simp⟩
        rintro _ ⟨rfl⟩ rfl
        -- a leading zero would have been a flag
        obtain ⟨hzero, _⟩ := List.cons.inj hp
        rw [hzero] at hflag
        exact absurd hflag (by decide)
  · next hdigit =>
    cases h
    exact ⟨[], rfl, by simp, Bool.eq_false_iff.mpr hdigit, fun _ => hflag⟩

/-- A point is read with the precision after it. -/
theorem read_precision_sound {r after : Reader} (hdigit : isDigit r.ch = false)
    (h : readPrecision r = .ok after) :
    ∃ precision, r.ch :: r.format = precisionText precision ++ after.ch :: after.format ∧
      isDigit after.ch = false ∧
      (precision = none → after.ch ≠ chr '.' ∧ after.ch = r.ch) := by
  rw [readPrecision] at h
  split at h
  · next hpoint =>
    obtain ⟨⟨value, ch, format⟩, hnumber, h⟩ := ok_of_bind h
    cases h
    obtain ⟨text, hp, hstop, hdigits, -⟩ := read_number_reads hnumber
    obtain ⟨numeral, rfl⟩ := exists_numeral hdigits
    refine ⟨some numeral, ?_, Bool.eq_false_iff.mpr hstop, by simp⟩
    rw [hpoint, hp]
    rfl
  · next hpoint =>
    cases h
    exact ⟨none, rfl, hdigit, fun _ => ⟨hpoint, rfl⟩⟩

/-- One modifier character, or two of the same. -/
theorem read_double_sound {length after : Length} {ch : Char8} {format rest : List Char8}
    (h : readDouble length ch format = .ok (after, rest)) :
    format = ch :: rest ∧ after = length.double ∨
      format = rest ∧ after = length ∧ ∀ next ∈ rest.head?, next ≠ ch := by
  cases format with
  | nil => cases h
  | cons peek format =>
      rw [readDouble] at h
      split at h
      · next hsame =>
        cases h
        exact .inl ⟨by rw [hsame], rfl⟩
      · next hother =>
        cases h
        refine .inr ⟨rfl, rfl, ?_⟩
        rintro _ ⟨rfl⟩
        exact hother

/-- A length modifier is read as far as it goes. -/
theorem read_length_sound {r after : Reader} (h : readLength r = .ok after) :
    ∃ length : Length, r.ch :: r.format = length.text ++ after.ch :: after.format ∧
      (length = .h → after.ch ≠ chr 'h') ∧ (length = .l → after.ch ≠ chr 'l') ∧
      (length = .none → after.ch ≠ chr 'h' ∧ after.ch ≠ chr 'l' ∧ after.ch = r.ch) := by
  rw [readLength] at h
  split at h
  · next hmodifier =>
    obtain ⟨⟨length, rest⟩, hdouble, h⟩ := ok_of_bind h
    obtain ⟨⟨next, tail⟩, hnext, h⟩ := ok_of_bind h
    cases h
    obtain rfl : rest = next :: tail := by
      cases rest with
      | nil => cases hnext
      | cons first rest =>
          cases hnext
          rfl
    rcases hmodifier with hch | hch
    · rw [hch] at hdouble ⊢
      rcases read_double_sound hdouble with ⟨hformat, -⟩ | ⟨hformat, -, hother⟩
      · rw [hformat]
        exact ⟨.hh, rfl, by simp, by simp, by simp⟩
      · rw [hformat]
        exact ⟨.h, rfl, fun _ => hother next rfl, by simp, by simp⟩
    · rw [hch] at hdouble ⊢
      rcases read_double_sound hdouble with ⟨hformat, -⟩ | ⟨hformat, -, hother⟩
      · rw [hformat]
        exact ⟨.ll, rfl, by simp, by simp, by simp⟩
      · rw [hformat]
        exact ⟨.l, rfl, by simp, fun _ => hother next rfl, by simp⟩
  · next hmodifier =>
    cases h
    obtain ⟨hh, hl⟩ := not_or.mp hmodifier
    exact ⟨.none, rfl, by simp, by simp, fun _ => ⟨hh, hl, rfl⟩⟩

/-- What the parser reads up to a character other than the NUL is a directive. -/
theorem read_directive_sound {format : List Char8} {r : Reader}
    (h : readDirective format = .ok r) (hch : r.ch ≠ 0) :
    ∃ d : Directive, d.NumbersFit ∧ format = d.text ++ r.format ∧
      r = ⟨d.spec, d.conv, r.format⟩ := by
  obtain ⟨⟨ch, rest⟩, hnext, hparts⟩ := ok_of_bind h
  obtain ⟨first, hfirst, hparts⟩ := ok_of_bind hparts
  obtain ⟨second, hsecond, hparts⟩ := ok_of_bind hparts
  obtain ⟨third, hthird, hlast⟩ := ok_of_bind hparts
  obtain ⟨flags, hflags, hflag⟩ := read_flags_sound hfirst
  obtain ⟨width, hwidth, hhead, hdigit, hnowidth⟩ := read_width_sound hflag hsecond
  obtain ⟨precision, hprecision, hstop, hnone⟩ := read_precision_sound hdigit hthird
  obtain ⟨length, hlength, hh, hl, hmodifier⟩ := read_length_sound hlast
  have hends : EndsDirective width precision length r.ch := by
    refine ⟨hch, hh, hl, fun hlengthnone => ?_⟩
    obtain ⟨hne, hnel, hsame⟩ := hmodifier hlengthnone
    refine ⟨hne, hnel, ?_, fun hprecisionnone => ?_⟩
    · rw [mem_numeral_chars_iff, hsame, hstop]
      exact Bool.false_ne_true
    · obtain ⟨hpoint, hkept⟩ := hnone hprecisionnone
      rw [hsame]
      refine ⟨hpoint, fun hwidthnone => ?_⟩
      rw [mem_flag_chars_iff, hkept, hnowidth hwidthnone]
      exact Bool.false_ne_true
  have hformat : format = ch :: rest := by
    cases format with
    | nil => cases hnext
    | cons c format =>
        cases hnext
        rfl
  refine ⟨⟨flags, width, precision, length, r.ch, hhead, hends⟩, ?_⟩
  have htext : format =
      Directive.text ⟨flags, width, precision, length, r.ch, hhead, hends⟩ ++ r.format := by
    rw [directive_text_append, hformat, ← hlength, ← hprecision, ← hwidth, ← hflags]
  -- the parser is a function, so it has read what the grammar says
  have hread := read_directive_text ⟨flags, width, precision, length, r.ch, hhead, hends⟩ r.format
  rw [← htext, h] at hread
  split at hread
  · next hfits => exact ⟨hfits, htext, Except.ok.inj hread⟩
  · cases hread

/-! ## Three directives -/

/-- `%+05d`. -/
def plusDirective : Directive where
  flags := [.plus, .zero]
  width := [5]
  precision := none
  length := .none
  conv := chr 'd'
  width_head := by decide
  conv_ends := by decide

/-- `%08lX`. -/
def upperDirective : Directive where
  flags := [.zero]
  width := [8]
  precision := none
  length := .l
  conv := chr 'X'
  width_head := by decide
  conv_ends := by decide

/-- `%05.0d`. -/
def zeroPrecisionDirective : Directive where
  flags := [.zero]
  width := [5]
  precision := some [0]
  length := .none
  conv := chr 'd'
  width_head := by decide
  conv_ends := by decide

end SiStultum
