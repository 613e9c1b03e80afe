import SiStultum.Formatter.Bounds

/-!
# The value returned

`__proto_print` adds up what the printers return. All but one return the length of the field they
print; `__print_char` returns the width, which is -1 when the directive has none. `fieldLengths` is
the length of the output, read off the format and the arguments, and `proto_print_count_iff` says
when the value returned is that length.
-/

namespace SiStultum

open Numerals Signed

/-- The digits that a number and a precision ask for. -/
def numberLength (base n : Nat) (precision : Int) : Nat :=
  if precision = 0 ∧ n = 0 then 0 else max (lowDigits base n).length precision.toNat

/-- The length of the field of a directive. -/
def fieldLength (spec : Spec) (conversion : Conversion) (arg : Arg) : Nat :=
  match conversion with
  | .signed =>
      let n := signedArg spec.length arg.word
      max spec.width.toNat ((if n < 0 ∨ spec.prefixChar ≠ 0 then 1 else 0) +
        numberLength 10 n.natAbs spec.precision)
  | .unsigned base _ =>
      max spec.width.toNat (numberLength base.val (unsignedArg spec.length arg.word) spec.precision)
  | .char | .percent => max spec.width.toNat 1
  | .string => max spec.width.toNat (shownOf (cString arg.target) spec.precision).length
  | .pointer => 16
  | .float | .unknown => 0

/-- The length of the output of a piece. -/
def Piece.fieldLength (args : List Arg) : Piece → Nat
  | .literal _ _ => 1
  | .directive d => SiStultum.fieldLength d.spec (conversionOf d.ch) (nextArg args)

/-- The length of the output of a format. -/
def fieldLengths : List Piece → List Arg → Nat
  | [], _ => 0
  | piece :: pieces, args =>
      piece.fieldLength args + fieldLengths pieces (args.drop piece.argCount)

/-- A `%c` or `%%` has a width. -/
def Piece.HasWidth : Piece → Prop
  | .literal _ _ => True
  | .directive d =>
      conversionOf d.ch = .char ∨ conversionOf d.ch = .percent → 1 ≤ d.spec.width

/-- The length of the string of a `%s` is a number that an `int` holds. -/
def Piece.ShortString (args : List Arg) : Piece → Prop
  | .literal _ _ => True
  | .directive d =>
      conversionOf d.ch = .string → (cString (nextArg args).target).length < 2 ^ 31

/-- The strings of a format are short. -/
def ShortStrings : List Piece → List Arg → Prop
  | [], _ => True
  | piece :: pieces, args =>
      piece.ShortString args ∧ ShortStrings pieces (args.drop piece.argCount)

/-- What a piece leaves out of the count: the difference between the length of the field and the
width that `__print_char` returns. -/
def Piece.miscount : Piece → Nat
  | .literal _ _ => 0
  | .directive d =>
      match conversionOf d.ch with
      | .char | .percent => (1 - d.spec.width).toNat
      | _ => 0

/-- The length of the digits of an unsigned number. -/
theorem length_unsigned_body (n : Nat) (precision : Int) (base : Nat) (upper : Bool) :
    (unsignedBody n precision base upper).length = numberLength base n precision := by
  rw [unsignedBody, numberLength]
  by_cases hzero : precision = 0 ∧ n = 0
  · rw [if_neg (by omega), if_pos hzero, List.length_nil]
  · rw [if_pos (by omega), if_neg hzero, length_zero_extend, unsignedChars, List.length_map]

/-- The length of the digits of a signed number. -/
theorem length_int_body (n precision : Int) :
    (intBody n precision).length = numberLength 10 n.natAbs precision :=
  length_unsigned_body _ _ _ _

/-- There is a sign for a negative number, and where a flag asks for one. -/
theorem length_sign_of (n : Int) (prefixChar : Char8) :
    (signOf (prefixOf n prefixChar)).length = if n < 0 ∨ prefixChar ≠ 0 then 1 else 0 := by
  rw [signOf, prefixOf]
  by_cases hneg : n < 0
  · rw [if_pos hneg, if_pos (show chr '-' ≠ 0 by decide), if_pos (Or.inl hneg),
      List.length_singleton]
  · rw [if_neg hneg]
    by_cases hsign : prefixChar = 0
    · rw [if_neg (by simpa using hsign), if_neg (by simp [hneg, hsign]), List.length_nil]
    · rw [if_pos hsign, if_pos (Or.inr hsign), List.length_singleton]

/-- The integer printers return the length of their field. -/
theorem int_printed_length {n width precision : Int} {align : Bool} {prefixChar pad : Char8}
    {printed : Printed} (h : intPrinted n width precision align prefixChar pad = .ok printed)
    (hwidth : -1 ≤ width ∧ width < 2 ^ 31) :
    printed.cnt = printed.out.length ∧ printed.out.length =
      max width.toNat ((if n < 0 ∨ prefixChar ≠ 0 then 1 else 0) +
        numberLength 10 n.natAbs precision) := by
  rw [intPrinted] at h
  split at h
  · cases h
  · split at h
    · next hroom =>
      rw [put_int_body hroom hwidth.1 hwidth.2] at h
      cases h
      refine ⟨rfl, ?_⟩
      rw [intField, length_layout, List.length_reverse, length_int_body, length_sign_of]
    · cases h

/-- What an unsigned conversion counts, and what it prints. -/
theorem unsigned_printed_length {n : Nat} {width precision : Int} {align : Bool} {pad : Char8}
    {base : DigitBase} {upper : Bool} {printed : Printed}
    (h : unsignedPrinted n width precision align pad base upper = .ok printed)
    (hwidth : -1 ≤ width ∧ width < 2 ^ 31) :
    printed.cnt = printed.out.length ∧
      printed.out.length = max width.toNat (numberLength base.val n precision) := by
  rw [unsignedPrinted] at h
  split at h
  · next hroom =>
    rw [put_unsigned_body hroom hwidth.1 hwidth.2] at h
    cases h
    refine ⟨rfl, ?_⟩
    rw [unsignedField, length_layout, List.length_reverse, length_unsigned_body, List.length_nil,
      Nat.zero_add]
  · cases h

/-- An address has at most 16 hexadecimal digits. -/
theorem number_length_pointer (word : BitVec 64) :
    max (16 : Int).toNat (numberLength hexadecimal.val word.toNat (-1)) = 16 := by
  have hdigits : (lowDigits hexadecimal.val word.toNat).length ≤ 16 := by
    rw [length_low_digits_le_iff hexadecimal.two_le (by decide)]
    exact word.isLt.trans_le (by decide)
  rw [numberLength, if_neg (by omega)]
  omega

/-- What a piece prints, and what it adds to the count. -/
theorem printed_length {piece : Piece} {args : List Arg} {printed : Printed}
    (h : piece.printed args = .ok printed) (hstring : piece.ShortString args) :
    printed.out.length = piece.fieldLength args ∧
      printed.cnt = (piece.fieldLength args : Int) - piece.miscount := by
  cases piece with
  | literal ch plain =>
      cases h
      exact ⟨rfl, rfl⟩
  | directive d =>
      have hwidth := d.width_fits
      rw [Piece.printed] at h
      split at h
      · rw [Piece.fieldLength, Piece.miscount]
        rw [Piece.ShortString] at hstring
        cases hconversion : conversionOf d.ch with
        | signed =>
            rw [hconversion] at h
            obtain ⟨hcnt, hlength⟩ := int_printed_length h hwidth
            exact ⟨hlength, by rw [hcnt, hlength]; exact (Int.sub_zero _).symm⟩
        | unsigned base upper =>
            rw [hconversion] at h
            obtain ⟨hcnt, hlength⟩ := unsigned_printed_length h hwidth
            exact ⟨hlength, by rw [hcnt, hlength]; exact (Int.sub_zero _).symm⟩
        | pointer =>
            rw [hconversion] at h
            obtain ⟨hcnt, hlength⟩ := unsigned_printed_length h (by decide)
            rw [number_length_pointer] at hlength
            exact ⟨hlength, by rw [hcnt, hlength]; rfl⟩
        | float | unknown =>
            rw [hconversion] at h
            cases h
            exact ⟨rfl, rfl⟩
        | char | percent =>
            rw [hconversion] at h
            cases h
            rw [print_char_out hwidth.1 hwidth.2, length_layout]
            refine ⟨rfl, ?_⟩
            simp only [printChar, fieldLength]
            omega
        | string =>
            rw [hconversion] at h
            -- without a NUL `__print_str` reads past the array, so only a terminated string prints
            by_cases hs : 0 ∈ (nextArg args).target
            · obtain ⟨text, hstart, htext⟩ := exists_text_of_mem hs
              have hshort := hstring hconversion
              rw [c_string_of_start hstart htext] at hshort
              rw [directivePrinted, print_str_stored hstart htext,
                string_printed_eq hshort hwidth.1 hwidth.2] at h
              cases h
              rw [fieldLength, c_string_of_start hstart htext, length_layout, List.length_nil,
                Nat.zero_add]
              exact ⟨rfl, (Int.sub_zero _).symm⟩
            · rw [directivePrinted, print_str_unterminated hs] at h
              cases h
      · cases h

/-- What the pieces leave out of the count. -/
def miscounts (pieces : List Piece) : Nat :=
  (pieces.map Piece.miscount).sum

/-- What a format counts, and what it prints. -/
theorem printed_pieces_length {pieces : List Piece} {args : List Arg} {printed : Printed}
    (h : printedPieces pieces args = .ok printed) (hstrings : ShortStrings pieces args) :
    printed.out.length = fieldLengths pieces args ∧
      printed.cnt = (fieldLengths pieces args : Int) - miscounts pieces := by
  induction pieces generalizing args printed with
  | nil =>
      cases h
      exact ⟨rfl, rfl⟩
  | cons piece pieces ih =>
      rw [printedPieces] at h
      obtain ⟨first, hfirst, h⟩ := ok_of_bind h
      obtain ⟨rest, hrest, h⟩ := ok_of_bind h
      cases h
      obtain ⟨hout, hcnt⟩ := printed_length hfirst hstrings.1
      obtain ⟨houts, hcnts⟩ := ih hrest hstrings.2
      have hmiscounts : miscounts (piece :: pieces) = piece.miscount + miscounts pieces := rfl
      simp only [List.length_append, fieldLengths, hmiscounts]
      omega

/-- A piece that is not counted right prints at least one character and hides at most two. -/
theorem miscount_le (piece : Piece) (args : List Arg) :
    piece.miscount ≤ 2 * piece.fieldLength args := by
  cases piece with
  | literal ch plain => exact Nat.zero_le _
  | directive d =>
      have hwidth := d.width_fits
      rw [Piece.miscount, Piece.fieldLength]
      cases conversionOf d.ch with
      | char | percent =>
          simp only [fieldLength]
          omega
      | signed | unsigned | pointer | string | float | unknown => exact Nat.zero_le _

/-- A format hides at most two characters for each one that it prints. -/
theorem miscounts_le (pieces : List Piece) (args : List Arg) :
    miscounts pieces ≤ 2 * fieldLengths pieces args := by
  induction pieces generalizing args with
  | nil => exact Nat.le_refl _
  | cons piece pieces ih =>
      have hfirst := miscount_le piece args
      have hrest := ih (args.drop piece.argCount)
      have hmiscounts : miscounts (piece :: pieces) = piece.miscount + miscounts pieces := rfl
      rw [hmiscounts, fieldLengths]
      omega

/-- A piece is counted right exactly when it is no `%c` or `%%` without a width. -/
theorem miscount_eq_zero_iff (piece : Piece) : piece.miscount = 0 ↔ piece.HasWidth := by
  cases piece with
  | literal ch plain => exact ⟨fun _ => trivial, fun _ => rfl⟩
  | directive d =>
      rw [Piece.miscount, Piece.HasWidth]
      cases conversionOf d.ch with
      | char | percent => simp
      | signed | unsigned | pointer | string | float | unknown => simp

/-- A format is counted right exactly when all its pieces are. -/
theorem miscounts_eq_zero_iff (pieces : List Piece) :
    miscounts pieces = 0 ↔ ∀ piece ∈ pieces, piece.HasWidth := by
  induction pieces with
  | nil => exact ⟨fun _ _ hmem => (List.not_mem_nil hmem).elim, fun _ => rfl⟩
  | cons piece pieces ih =>
      have hmiscounts : miscounts (piece :: pieces) = piece.miscount + miscounts pieces := rfl
      rw [hmiscounts, Nat.add_eq_zero_iff, ih, miscount_eq_zero_iff, List.forall_mem_cons]

/-- `__proto_print` returns the number of its calls of `__putchar` exactly when every `%c` and
`%%` has a width, an `int` holds the number, and no signed conversion is given the least
`long long`, at which it overflows. -/
theorem proto_print_count_iff {pieces : List Piece} {args : List Arg} {buff : StrBuff}
    (hargs : argCount pieces ≤ args.length) (hstrings : ShortStrings pieces args)
    (hfit : protoPrint buff (formatOf pieces ++ [0]) args ≠ .error .outOfBounds) :
    (∃ s, protoPrint buff (formatOf pieces ++ [0]) args = .ok s ∧ s.ret = s.out.length) ↔
      (∀ piece ∈ pieces, piece.HasWidth) ∧ fieldLengths pieces args < 2 ^ 31 ∧
        Negatable pieces args := by
  have hprint := proto_print_pieces pieces [] buff args
  rcases printed_pieces_cases hargs hfit with ⟨printed, hmeaning⟩ | ⟨hoverflow, hleast⟩
  · rw [hmeaning] at hprint
    obtain ⟨after, hok⟩ := hprint
    obtain ⟨hout, hcnt⟩ := printed_pieces_length hmeaning hstrings
    have hle := miscounts_le pieces args
    rw [← miscounts_eq_zero_iff, and_iff_left (negatable_of_ok hmeaning)]
    constructor
    · rintro ⟨s, hs, hret⟩
      obtain rfl := Except.ok.inj (hok.symm.trans hs)
      simp only [hout, hcnt] at hret
      have hupper := int32_upper ((fieldLengths pieces args : Int) - miscounts pieces)
      have hlt : fieldLengths pieces args < 2 ^ 31 := by omega
      refine ⟨?_, hlt⟩
      have hfits : int32 (fieldLengths pieces args) = (fieldLengths pieces args : Int) :=
        int32_of_fits (by omega) (by omega)
      have hsame := (int32_eq_int32_iff _ _).mp (hret.trans hfits.symm)
      omega
    · rintro ⟨hzero, hlt⟩
      refine ⟨_, hok, ?_⟩
      simp only [hout, hcnt]
      rw [hzero]
      exact int32_of_fits (by omega) (by omega)
  · rw [hoverflow] at hprint
    refine ⟨fun ⟨s, hs, _⟩ => ?_, fun h => absurd h.2.2 hleast⟩
    rw [show protoPrint buff (formatOf pieces ++ [0]) args = .error .overflow from hprint] at hs
    cases hs

/-- `5c`, after the `%`. -/
def wideCharDirective : CompleteDirective :=
  ⟨[chr '5', chr 'c'], { width := 5 }, chr 'c', by decide, by decide⟩

/-- The count of `%5c`. -/
theorem wide_char_count :
    (∃ s, protoPrint clearBuff (formatOf [.directive wideCharDirective] ++ [0]) [⟨65, []⟩] =
        .ok s ∧ s.ret = s.out.length) ↔
      (∀ piece ∈ [Piece.directive wideCharDirective], piece.HasWidth) ∧
        fieldLengths [.directive wideCharDirective] [⟨65, []⟩] < 2 ^ 31 ∧
        Negatable [.directive wideCharDirective] [⟨65, []⟩] :=
  proto_print_count_iff (by decide) ⟨fun hstring => absurd hstring (by decide), trivial⟩
    (by decide +kernel)

/-- `%c` prints one character and returns -1. -/
theorem lone_char_miscounted :
    protoPrint clearBuff [chr '%', chr 'c', 0] [⟨65, []⟩] =
      .ok ⟨[chr 'A'], -1, clearBuff, []⟩ := by
  decide +kernel

end SiStultum
