import SiStultum.Formatter.Fields

/-!
# `__proto_print`

The format is the list of characters from the format pointer on, its NUL included, and a read
past its last character is a fault. `readDirective` is the part of the loop body that parses a
directive, `printDirective` the `switch` on its conversion character, and `protoLoop` the loop.
-/

namespace SiStultum

open Signed

/-- One argument of the call: the word `va_arg` reads, and the memory it points to as a `char *`. -/
structure Arg where
  word : BitVec 64
  target : List Char8
  deriving DecidableEq, Repr

/-- The values of `length`: `hh` is -2, `h` is -1, none is 0, `l` is 1 and `ll` is 2. -/
inductive Length where
  | hh | h | none | l | ll
  deriving DecidableEq, Repr

/-- `length *= 2`. -/
def Length.double : Length → Length
  | .h => .hh
  | .l => .ll
  | length => length

/-- The variables that a directive sets. The width and the precision are -1 when it has none. -/
structure Spec where
  align : Bool := false
  prefixChar : Char8 := 0
  pad : Char8 := chr ' '
  width : Int := -1
  precision : Int := -1
  length : Length := .none
  deriving DecidableEq, Repr

/-- The state of the parser: the variables, `ch`, and the rest of the format. -/
structure Reader where
  spec : Spec
  ch : Char8
  format : List Char8
  deriving DecidableEq, Repr

/-- `is_digit`. -/
def isDigit (c : Char8) : Bool :=
  48 ≤ c.toInt ∧ c.toInt ≤ 57

/-- `chint`. -/
def chint (c : Char8) : Int :=
  if isDigit c then c.toInt - 48 else -1

/-- `__is_fmtflag`. -/
def isFmtflag (c : Char8) : Bool :=
  [chr '-', chr '+', chr ' ', chr '0'].contains c

/-- `__read_int`, with `ret` the number read so far. The sum of numbers that are not negative
overflows if the product in it does. -/
def readInt : List Char8 → (ret : Int) → Except Fault (Int × List Char8)
  | [], _ => .error .pastFormat
  | c :: rest, ret =>
      if isDigit c then do
        let ret ← checkInt (ret * 10 + chint c)
        readInt rest ret
      else .ok (ret, c :: rest)

/-- `ch = *format++`. -/
def nextChar : List Char8 → Except Fault (Char8 × List Char8)
  | [] => .error .pastFormat
  | ch :: format => .ok (ch, format)

/-- The `switch` on a flag. -/
def setFlag (spec : Spec) (ch : Char8) : Spec :=
  if ch = chr '-' then { spec with align := true }
  else if ch = chr '+' then { spec with prefixChar := chr '+' }
  else if ch = chr ' ' then
    if spec.prefixChar ≠ chr '+' then { spec with prefixChar := chr ' ' } else spec
  else if ch = chr '0' then { spec with pad := chr '0' }
  else spec

/-- `while (__is_fmtflag(ch))`. -/
def readFlagLoop (spec : Spec) (ch : Char8) : List Char8 → Except Fault Reader
  | [] => if isFmtflag ch then .error .pastFormat else .ok ⟨spec, ch, []⟩
  | next :: rest =>
      if isFmtflag ch then readFlagLoop (setFlag spec ch) next rest
      else .ok ⟨spec, ch, next :: rest⟩

/-- The flags. -/
def readFlags (r : Reader) : Except Fault Reader :=
  readFlagLoop r.spec r.ch r.format

/-- `format = __read_int(p, &ret); ch = *format++`. -/
def readNumber (p : List Char8) : Except Fault (Int × Char8 × List Char8) := do
  let (ret, format) ← readInt p 0
  let (ch, format) ← nextChar format
  pure (ret, ch, format)

/-- The width. `__read_int` starts again at `ch`. -/
def readWidth (r : Reader) : Except Fault Reader :=
  if isDigit r.ch then do
    let (width, ch, format) ← readNumber (r.ch :: r.format)
    pure ⟨{ r.spec with width := width }, ch, format⟩
  else pure r

/-- The precision. -/
def readPrecision (r : Reader) : Except Fault Reader :=
  if r.ch = chr '.' then do
    let (precision, ch, format) ← readNumber r.format
    pure ⟨{ r.spec with precision := precision }, ch, format⟩
  else pure r

/-- `if (*format == ch) { length *= 2; format++; }`. -/
def readDouble (length : Length) (ch : Char8) :
    List Char8 → Except Fault (Length × List Char8)
  | [] => .error .pastFormat
  | peek :: rest => if peek = ch then .ok (length.double, rest) else .ok (length, peek :: rest)

/-- The length modifier. -/
def readLength (r : Reader) : Except Fault Reader :=
  if r.ch = chr 'h' ∨ r.ch = chr 'l' then do
    let (length, format) ← readDouble (if r.ch = chr 'h' then .h else .l) r.ch r.format
    let (ch, format) ← nextChar format
    pure ⟨{ r.spec with length := length }, ch, format⟩
  else pure r

/-- The parser of a directive, from the character after the `%` on. -/
def readDirective (format : List Char8) : Except Fault Reader := do
  let (ch, format) ← nextChar format
  let r ← readFlags ⟨{}, ch, format⟩
  let r ← readWidth r
  let r ← readPrecision r
  readLength r

/-- The cases of the `switch` on the conversion character. -/
inductive Conversion where
  | signed
  | unsigned (base : DigitBase) (upper : Bool)
  | float
  | char
  | string
  | pointer
  | percent
  | unknown
  deriving DecidableEq

def binary : DigitBase := ⟨2, by decide, by decide⟩

def octal : DigitBase := ⟨8, by decide, by decide⟩

def hexadecimal : DigitBase := ⟨16, by decide, by decide⟩

/-- The case of a conversion character. -/
def conversionOf (ch : Char8) : Conversion :=
  if ch = chr 'd' ∨ ch = chr 'i' then .signed
  else if ch = chr 'b' then .unsigned binary false
  else if ch = chr 'u' then .unsigned decimal false
  else if ch = chr 'o' then .unsigned octal false
  else if ch = chr 'x' then .unsigned hexadecimal false
  else if ch = chr 'X' then .unsigned hexadecimal true
  else if ch = chr 'f' then .float
  else if ch = chr 'c' then .char
  else if ch = chr 's' then .string
  else if ch = chr 'p' then .pointer
  else if ch = chr '%' then .percent
  else .unknown

/-- The argument of a signed conversion: a `signed char`, `short`, `int`, `long` or `long long`. -/
def signedArg (length : Length) (word : BitVec 64) : Int :=
  match length with
  | .hh => (word.setWidth 8).toInt
  | .h => (word.setWidth 16).toInt
  | .none => (word.setWidth 32).toInt
  | .l => word.toInt
  | .ll => word.toInt

/-- The argument of an unsigned conversion. -/
def unsignedArg (length : Length) (word : BitVec 64) : Nat :=
  match length with
  | .hh => (word.setWidth 8).toNat
  | .h => (word.setWidth 16).toNat
  | .none => (word.setWidth 32).toNat
  | .l => word.toNat
  | .ll => word.toNat

/-- The state of the call: the characters passed to `__putchar`, `ret`, `__str_buff`, and the
arguments that `va_arg` has not read. -/
structure PrintState where
  out : List Char8
  ret : Int
  buff : StrBuff
  args : List Arg
  deriving DecidableEq

/-- `va_arg`. -/
def vaArg (s : PrintState) : Except Fault (Arg × PrintState) :=
  match s.args with
  | [] => .error .noArgument
  | arg :: args => .ok (arg, { s with args := args })

/-- `ret += printer(__putchar, ..)`. -/
def PrintState.add (s : PrintState) (printed : Printed) : PrintState :=
  { s with out := s.out ++ printed.out, ret := int32 (s.ret + printed.cnt) }

/-- The `switch` on the conversion character. -/
def printDirective (spec : Spec) (conversion : Conversion) (s : PrintState) :
    Except Fault PrintState :=
  match conversion with
  | .signed => do
      let (arg, s) ← vaArg s
      let (buff, printed) ← printInt s.buff (signedArg spec.length arg.word) spec.width
        spec.precision spec.align spec.prefixChar spec.pad
      pure ({ s with buff := buff }.add printed)
  | .unsigned base upper => do
      let (arg, s) ← vaArg s
      let (buff, printed) ← printUnsigned s.buff (unsignedArg spec.length arg.word) spec.width
        spec.precision spec.align spec.pad base.val upper
      pure ({ s with buff := buff }.add printed)
  | .float => pure s
  | .char => do
      let (arg, s) ← vaArg s
      pure (s.add (printChar (arg.word.setWidth 8) spec.width spec.align))
  | .string => do
      let (arg, s) ← vaArg s
      let printed ← printStr arg.target spec.width spec.precision spec.align
      pure (s.add printed)
  | .pointer => do
      let (arg, s) ← vaArg s
      let (buff, printed) ← printUnsigned s.buff arg.word.toNat 16 (-1) false (chr '0')
        hexadecimal.val true
      pure ({ s with buff := buff }.add printed)
  | .percent => pure (s.add (printChar (chr '%') spec.width spec.align))
  | .unknown => pure s

/-! ## The parser moves forward -/

/-- A part of the parser takes `r` to `after`: it moves forward over some text, and what follows
that text has no influence. -/
structure Reads (parse : Reader → Except Fault Reader) (r after : Reader) : Prop where
  suffix : after.ch :: after.format <:+ r.ch :: r.format
  text : ∃ text, r.format = text ++ after.format ∧
    ∀ more, parse ⟨r.spec, r.ch, text ++ more⟩ = .ok ⟨after.spec, after.ch, more⟩

/-- A part of a directive that may be missing. -/
theorem Reads.refl {parse : Reader → Except Fault Reader} {r : Reader}
    (h : ∀ more, parse ⟨r.spec, r.ch, more⟩ = .ok ⟨r.spec, r.ch, more⟩) : Reads parse r r :=
  ⟨List.suffix_rfl, [], rfl, h⟩

/-- Two parts of the parser in sequence. -/
theorem Reads.bind {first second : Reader → Except Fault Reader} {r middle after : Reader}
    (hfirst : Reads first r middle) (hsecond : Reads second middle after) :
    Reads (fun r => first r >>= second) r after := by
  obtain ⟨text, htext, hparse⟩ := hfirst.text
  obtain ⟨rest, hrest, hnext⟩ := hsecond.text
  refine ⟨hsecond.suffix.trans hfirst.suffix, text ++ rest, ?_, ?_⟩
  · rw [htext, hrest, List.append_assoc]
  · intro more
    rw [List.append_assoc, hparse, ok_bind]
    exact hnext more

/-- The flags of a directive that is read whole. -/
theorem read_flags_reads {r after : Reader} (h : readFlags r = .ok after) :
    Reads readFlags r after := by
  obtain ⟨spec, ch, format⟩ := r
  rw [readFlags] at h
  simp only at h
  induction format generalizing spec ch with
  | nil =>
      rw [readFlagLoop] at h
      split at h
      · cases h
      · next hflag =>
        cases h
        refine .refl fun more => ?_
        cases more <;> simp [readFlags, readFlagLoop, hflag]
  | cons next format ih =>
      rw [readFlagLoop] at h
      split at h
      · next hflag =>
        have hreads := ih (setFlag spec ch) next h
        obtain ⟨text, htext, hparse⟩ := hreads.text
        refine ⟨hreads.suffix.trans (List.suffix_cons _ _), next :: text, ?_, ?_⟩
        · rw [List.cons_append, ← htext]
        · intro more
          rw [List.cons_append, readFlags, readFlagLoop, if_pos hflag]
          exact hparse more
      · next hflag =>
        cases h
        refine .refl fun more => ?_
        cases more <;> simp [readFlags, readFlagLoop, hflag]

/-- `__read_int` stops at the first character that is not a digit. -/
theorem read_int_reads {p format : List Char8} {ret value : Int}
    (h : readInt p ret = .ok (value, format)) :
    ∃ text ch rest, p = text ++ ch :: rest ∧ format = ch :: rest ∧ ¬ isDigit ch ∧
      (∀ c ∈ text, isDigit c = true) ∧
      ∀ more, readInt (text ++ ch :: more) ret = .ok (value, ch :: more) := by
  induction p generalizing ret with
  | nil => cases h
  | cons c p ih =>
      rw [readInt] at h
      split at h
      · next hdigit =>
        obtain ⟨next, hnext, h⟩ := ok_of_bind h
        obtain ⟨text, ch, rest, hp, hformat, hstop, hdigits, hread⟩ := ih h
        refine ⟨c :: text, ch, rest, by rw [hp, List.cons_append], hformat, hstop,
          List.forall_mem_cons.mpr ⟨hdigit, hdigits⟩, fun more => ?_⟩
        rw [List.cons_append, readInt, if_pos hdigit, hnext, ok_bind]
        exact hread more
      · next hdigit =>
        cases h
        refine ⟨[], c, p, rfl, rfl, hdigit, fun _ hmem => absurd hmem List.not_mem_nil,
          fun more => ?_⟩
        rw [List.nil_append, readInt, if_neg hdigit]

/-- `__read_int` and the character after the number. -/
theorem read_number_reads {p rest : List Char8} {value : Int} {ch : Char8}
    (h : readNumber p = .ok (value, ch, rest)) :
    ∃ text, p = text ++ ch :: rest ∧ ¬ isDigit ch ∧ (∀ c ∈ text, isDigit c = true) ∧
      ∀ more, readNumber (text ++ ch :: more) = .ok (value, ch, more) := by
  obtain ⟨⟨ret, format⟩, hint, h⟩ := ok_of_bind h
  obtain ⟨text, c, tail, hp, rfl, hstop, hdigits, hread⟩ := read_int_reads hint
  cases h
  refine ⟨text, hp, hstop, hdigits, fun more => ?_⟩
  rw [readNumber, hread]
  rfl

/-- Its width. -/
theorem read_width_reads {r after : Reader} (h : readWidth r = .ok after) :
    Reads readWidth r after := by
  rw [readWidth] at h
  split at h
  · next hdigit =>
    obtain ⟨⟨width, ch, format⟩, hnumber, h⟩ := ok_of_bind h
    cases h
    obtain ⟨text, hp, hstop, -, hread⟩ := read_number_reads hnumber
    cases text with
    | nil =>
        obtain ⟨rfl, _⟩ := List.cons.inj hp
        exact absurd hdigit hstop
    | cons c text =>
        obtain ⟨rfl, hformat⟩ := List.cons.inj hp
        refine ⟨⟨r.ch :: text, hp.symm⟩, text ++ [ch], ?_, fun more => ?_⟩
        · rw [hformat, List.append_assoc]
          rfl
        · rw [readWidth, if_pos hdigit, List.append_assoc]
          have hmore := hread more
          rw [List.cons_append] at hmore
          simp only [List.singleton_append, hmore]
          rfl
  · next hdigit =>
    cases h
    exact .refl fun more => by rw [readWidth, if_neg hdigit]; rfl

/-- Its precision. -/
theorem read_precision_reads {r after : Reader} (h : readPrecision r = .ok after) :
    Reads readPrecision r after := by
  rw [readPrecision] at h
  split at h
  · next hdot =>
    obtain ⟨⟨precision, ch, format⟩, hnumber, h⟩ := ok_of_bind h
    cases h
    obtain ⟨text, hp, -, -, hread⟩ := read_number_reads hnumber
    refine ⟨⟨r.ch :: text, by rw [hp]; rfl⟩, text ++ [ch], ?_, fun more => ?_⟩
    · rw [hp, List.append_assoc]
      rfl
    · rw [readPrecision, if_pos hdot, List.append_assoc]
      simp only [List.singleton_append, hread more]
      rfl
  · next hdot =>
    cases h
    exact .refl fun more => by rw [readPrecision, if_neg hdot]; rfl

/-- Its length. -/
theorem read_length_reads {r after : Reader} (h : readLength r = .ok after) :
    Reads readLength r after := by
  rw [readLength] at h
  split at h
  · next hmodifier =>
    obtain ⟨⟨length, rest⟩, hdouble, h⟩ := ok_of_bind h
    obtain ⟨⟨ch, format⟩, hnext, h⟩ := ok_of_bind h
    cases h
    -- a doubled `h` or `l` takes one character more than a single one
    cases hformat : r.format with
    | nil =>
        rw [hformat] at hdouble
        cases hdouble
    | cons peek tail =>
        rw [hformat, readDouble] at hdouble
        split at hdouble
        · next hsame =>
          cases hdouble
          cases rest with
          | nil => cases hnext
          | cons next tail =>
              cases hnext
              refine ⟨⟨[r.ch, peek], by rw [hformat]; rfl⟩, [peek, ch], by rw [hformat]; rfl,
                fun more => ?_⟩
              rw [readLength, if_pos hmodifier, List.cons_append, readDouble, if_pos hsame]
              rfl
        · next hother =>
          cases hdouble
          cases hnext
          refine ⟨⟨[r.ch], by rw [hformat]; rfl⟩, [ch], by rw [hformat]; rfl, fun more => ?_⟩
          rw [readLength, if_pos hmodifier, List.cons_append, readDouble, if_neg hother]
          rfl
  · next hmodifier =>
    cases h
    exact .refl fun more => by rw [readLength, if_neg hmodifier]; rfl

/-- The parser of a directive. -/
theorem read_directive_reads {format : List Char8} {r : Reader}
    (h : readDirective format = .ok r) :
    r.ch :: r.format <:+ format ∧
      ∃ text, format = text ++ r.format ∧
        ∀ more, readDirective (text ++ more) = .ok ⟨r.spec, r.ch, more⟩ := by
  obtain ⟨⟨ch, rest⟩, hnext, h⟩ := ok_of_bind h
  obtain ⟨flags, hflags, h⟩ := ok_of_bind h
  obtain ⟨width, hwidth, h⟩ := ok_of_bind h
  obtain ⟨precision, hprecision, hlength⟩ := ok_of_bind h
  have hreads := (read_flags_reads hflags).bind ((read_width_reads hwidth).bind
    ((read_precision_reads hprecision).bind (read_length_reads hlength)))
  cases format with
  | nil => cases hnext
  | cons c format =>
      cases hnext
      obtain ⟨text, htext, hparse⟩ := hreads.text
      exact ⟨hreads.suffix, ch :: text, by rw [List.cons_append, ← htext], hparse⟩

/-! ## The width that is read -/

/-- The value of a digit is not negative. -/
theorem chint_nonneg {c : Char8} (h : isDigit c = true) : 0 ≤ chint c := by
  rw [chint, if_pos h]
  simp only [isDigit, decide_eq_true_eq] at h
  omega

/-- `__read_int` yields a number that an `int` holds. -/
theorem read_int_fits {p format : List Char8} {ret value : Int} (hlow : 0 ≤ ret)
    (hhigh : ret < 2 ^ 31) (h : readInt p ret = .ok (value, format)) :
    0 ≤ value ∧ value < 2 ^ 31 := by
  induction p generalizing ret with
  | nil => cases h
  | cons c p ih =>
      rw [readInt] at h
      split at h
      · next hdigit =>
        obtain ⟨next, hnext, h⟩ := ok_of_bind h
        rw [checkInt] at hnext
        split at hnext
        · next hfits =>
          cases hnext
          have hchint := chint_nonneg hdigit
          exact ih (by omega) hfits.2 h
        · cases hnext
      · cases h
        exact ⟨hlow, hhigh⟩

/-- A flag leaves the width alone. -/
theorem set_flag_width (spec : Spec) (ch : Char8) : (setFlag spec ch).width = spec.width := by
  rw [setFlag]
  repeat' split
  all_goals rfl

/-- Flags leave the width alone. -/
theorem read_flags_width {r after : Reader} (h : readFlags r = .ok after) :
    after.spec.width = r.spec.width := by
  obtain ⟨spec, ch, format⟩ := r
  rw [readFlags] at h
  simp only at h ⊢
  induction format generalizing spec ch with
  | nil =>
      rw [readFlagLoop] at h
      split at h <;> cases h
      rfl
  | cons next format ih =>
      rw [readFlagLoop] at h
      split at h
      · rw [ih _ _ h, set_flag_width]
      · cases h
        rfl

/-- The width of a directive is -1 or a number that an `int` holds. -/
theorem read_directive_width {format : List Char8} {r : Reader}
    (h : readDirective format = .ok r) : -1 ≤ r.spec.width ∧ r.spec.width < 2 ^ 31 := by
  obtain ⟨⟨ch, rest⟩, _, h⟩ := ok_of_bind h
  obtain ⟨flags, hflags, h⟩ := ok_of_bind h
  obtain ⟨width, hwidth, h⟩ := ok_of_bind h
  obtain ⟨precision, hprecision, hlength⟩ := ok_of_bind h
  have hfits : -1 ≤ width.spec.width ∧ width.spec.width < 2 ^ 31 := by
    rw [readWidth] at hwidth
    split at hwidth
    · obtain ⟨⟨value, next, format⟩, hnumber, hwidth⟩ := ok_of_bind hwidth
      obtain ⟨⟨ret, tail⟩, hint, hnumber⟩ := ok_of_bind hnumber
      obtain ⟨⟨last, more⟩, _, hnumber⟩ := ok_of_bind hnumber
      cases hnumber
      cases hwidth
      obtain ⟨hlow, hhigh⟩ := read_int_fits (Int.le_refl 0) (by decide) hint
      exact ⟨Int.le_trans (by decide) hlow, hhigh⟩
    · cases hwidth
      have hnone : (-1 : Int) < 2 ^ 31 := by decide
      rw [read_flags_width hflags]
      exact ⟨Int.le_refl _, hnone⟩
  have hsame : precision.spec.width = width.spec.width := by
    rw [readPrecision] at hprecision
    split at hprecision
    · obtain ⟨_, _, hprecision⟩ := ok_of_bind hprecision
      cases hprecision
      rfl
    · cases hprecision
      rfl
  rw [← hsame] at hfits
  rw [readLength] at hlength
  split at hlength
  · obtain ⟨_, _, hlength⟩ := ok_of_bind hlength
    obtain ⟨_, _, hlength⟩ := ok_of_bind hlength
    cases hlength
    exact hfits
  · cases hlength
    exact hfits

/-! ## The loop -/

/-- A directive takes at least one character. -/
theorem read_directive_length {format : List Char8} {r : Reader}
    (h : readDirective format = .ok r) : r.format.length < format.length := by
  have hsuffix := (read_directive_reads h).1.length_le
  rw [List.length_cons] at hsuffix
  omega

/-- `while ((ch = *format++) != 0)`. -/
def protoLoop (format : List Char8) (s : PrintState) : Except Fault PrintState :=
  match format with
  | [] => .error .pastFormat
  | ch :: rest =>
      if ch = 0 then .ok s
      else if ch = chr '%' then
        match _h : readDirective rest with
        | .error fault => .error fault
        | .ok r => do
            let s ← printDirective r.spec (conversionOf r.ch) s
            protoLoop r.format s
      else protoLoop rest (s.add ⟨[ch], 1⟩)
termination_by format.length
decreasing_by
  · have hmove := read_directive_length _h
    simp only [List.length_cons]
    omega
  · simp

/-- `__proto_print`: the final state holds the output and the value returned. -/
def protoPrint (buff : StrBuff) (format : List Char8) (args : List Arg) :
    Except Fault PrintState :=
  protoLoop format ⟨[], 0, buff, args⟩

end SiStultum
