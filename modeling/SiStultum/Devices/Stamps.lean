import SiStultum.Devices.Serial
import SiStultum.Formatter.IsoField

/-!
# The time stamps of `serial_printf`

The macro reads `ms_count` twice, once for the seconds and once for the milliseconds, in either
order. `stamp_reads_back_iff` says when the stamp is the time of the second of these reads: an
interrupt between the two, at the end of a second, makes the stamp a second older than that read, or
a second younger.
-/

namespace SiStultum

open Signed

/-- `%d`, with a width and a padding character. -/
structure DecimalPiece (d : CompleteDirective) (width : Int) (pad : Char8) : Prop where
  ch : d.ch = chr 'd'
  spec : d.spec = { pad := pad, width := width }

/-- The directive of the seconds. -/
theorem read_nine : readDirective ("9d".toList.map chr) = .ok ⟨{ width := 9 }, chr 'd', []⟩ := by
  decide

/-- The directive of the milliseconds. -/
theorem read_zero_three : readDirective ("03d".toList.map chr) =
    .ok ⟨{ pad := chr '0', width := 3 }, chr 'd', []⟩ := by
  decide

/-- `d` does not end a format. -/
theorem decimal_ne_nul : chr 'd' ≠ 0 := by
  decide

/-- `%9d`. -/
def secondsDirective : CompleteDirective :=
  ⟨"9d".toList.map chr, { width := 9 }, chr 'd', read_nine, decimal_ne_nul⟩

/-- `%03d`. -/
def millisDirective : CompleteDirective :=
  ⟨"03d".toList.map chr, { pad := chr '0', width := 3 }, chr 'd', read_zero_three, decimal_ne_nul⟩

/-- `[%9d.%03d] `. -/
def stampPieces : List Piece :=
  [.literal (chr '[') (by decide), .directive secondsDirective, .literal (chr '.') (by decide),
    .directive millisDirective, .literal (chr ']') (by decide), .literal (chr ' ') (by decide)]

/-- The seconds of a stamp. -/
def stampSeconds (time : BitVec 64) : List Char8 :=
  intField (signedArg .none (time / 1000)) 9 (-1) false 0 (chr ' ')

/-- The milliseconds of a stamp. -/
def stampMillis (time : BitVec 64) : List Char8 :=
  intField (signedArg .none (time % 1000)) 3 (-1) false 0 (chr '0')

/-- The stamp of a read of `ms_count` for the seconds and one for the milliseconds. -/
def stampText (seconds millis : BitVec 64) : List Char8 :=
  chr '[' :: (stampSeconds seconds ++ (chr '.' :: (stampMillis millis ++ [chr ']', chr ' '])))

/-- The stamp of the two reads of `ms_count` in the order in which they are made. -/
def ReadOrder.stamp (order : ReadOrder) (first second : BitVec 64) : List Char8 :=
  stampText (order.seconds first second) (order.millis first second)

/-- The argument of a `%d`. -/
theorem signed_arg_none (word : BitVec 64) :
    signedArg .none word =
      if word.toNat % 2 ^ 32 < 2 ^ 31 then ((word.toNat % 2 ^ 32 : Nat) : Int)
      else ((word.toNat % 2 ^ 32 : Nat) : Int) - (2 : Int) ^ 32 := by
  rw [signedArg, BitVec.toInt_eq_toNat_cond, BitVec.toNat_setWidth]
  split <;> split <;> omega

/-- It is an `int`. -/
theorem signed_arg_none_range (word : BitVec 64) :
    -2 ^ 31 ≤ signedArg .none word ∧ signedArg .none word < 2 ^ 31 := by
  rw [signed_arg_none]
  split <;> omega

/-- A `%d` with a width and no precision. -/
theorem int_printed_field (word : BitVec 64) {width : Int} (hlow : -1 ≤ width)
    (hhigh : width < 2 ^ 31) (pad : Char8) :
    intPrinted (signedArg .none word) width (-1) false 0 pad =
      .ok ⟨intField (signedArg .none word) width (-1) false 0 pad,
        (intField (signedArg .none word) width (-1) false 0 pad).length⟩ := by
  obtain ⟨hleast, hgreatest⟩ := signed_arg_none_range word
  have hroom : (intBody (signedArg .none word) (-1)).length < 32 :=
    (length_int_body_lt_iff (by omega) (by omega) (-1)).mpr (by decide)
  rw [intPrinted, if_neg (by omega), if_pos hroom, put_int_body hroom hlow hhigh]

/-- A literal character and the pieces after it. -/
theorem printed_literal_cons (ch : Char8) (plain : ch ≠ 0 ∧ ch ≠ chr '%') {pieces : List Piece}
    {args : List Arg} {rest : Printed} (hrest : printedPieces pieces args = .ok rest) :
    printedPieces (.literal ch plain :: pieces) args = .ok ⟨ch :: rest.out, 1 + rest.cnt⟩ := by
  have hfirst : (Piece.literal ch plain).printed args = .ok ⟨[ch], 1⟩ := rfl
  have hkept : args.drop (Piece.literal ch plain).argCount = args := rfl
  rw [printedPieces, hfirst, ok_bind, hkept, hrest]
  rfl

/-- A `%d` and the pieces after it. -/
theorem printed_decimal_cons {d : CompleteDirective} {width : Int} {pad : Char8}
    (hd : DecimalPiece d width pad) (hlow : -1 ≤ width) (hhigh : width < 2 ^ 31) (arg : Arg)
    {pieces : List Piece} {args : List Arg} {rest : Printed}
    (hrest : printedPieces pieces args = .ok rest) :
    ∃ cnt, printedPieces (.directive d :: pieces) (arg :: args) =
      .ok ⟨intField (signedArg .none arg.word) width (-1) false 0 pad ++ rest.out, cnt⟩ := by
  have hconversion : conversionOf d.ch = .signed := by
    rw [hd.ch]
    decide
  have hcount : (Piece.directive d).argCount = 1 := by
    rw [Piece.argCount, hconversion]
    rfl
  have hfirst : (Piece.directive d).printed (arg :: args) =
      intPrinted (signedArg .none arg.word) width (-1) false 0 pad := by
    rw [Piece.printed, hconversion, hd.spec]
    rfl
  rw [printedPieces, hfirst, int_printed_field arg.word hlow hhigh, ok_bind, hcount,
    List.drop_one, List.tail_cons, hrest, ok_bind, pure_ok]
  exact ⟨_, rfl⟩

/-- What the stamp prints. -/
theorem stamp_printed (seconds millis : BitVec 64) :
    ∃ cnt, printedPieces stampPieces (stampArgs seconds millis) =
      .ok ⟨stampText seconds millis, cnt⟩ := by
  have hnone : printedPieces [] [] = .ok ⟨[], 0⟩ := rfl
  have hend := printed_literal_cons (chr ']') (by decide)
    (printed_literal_cons (chr ' ') (by decide) hnone)
  obtain ⟨_, hmillis⟩ := printed_decimal_cons (d := millisDirective) ⟨rfl, rfl⟩ (by decide)
    (by decide) ⟨millis % 1000, []⟩ hend
  obtain ⟨_, hseconds⟩ := printed_decimal_cons (d := secondsDirective) ⟨rfl, rfl⟩ (by decide)
    (by decide) ⟨seconds / 1000, []⟩ (printed_literal_cons (chr '.') (by decide) hmillis)
  rw [stampPieces, stampArgs, stampText, stampSeconds, stampMillis]
  exact ⟨_, printed_literal_cons (chr '[') (by decide) hseconds⟩

/-- The format of the stamp in pieces. -/
theorem stamp_format : formatOf stampPieces ++ [0] = stampFormat := by
  decide

/-- `__proto_print` prints the stamp. -/
theorem proto_print_stamp (buff : StrBuff) (seconds millis : BitVec 64) :
    ∃ after, protoPrint buff stampFormat (stampArgs seconds millis) = .ok after ∧
      after.out = stampText seconds millis := by
  obtain ⟨cnt, hprinted⟩ := stamp_printed seconds millis
  have hprint := proto_print_pieces stampPieces [] buff (stampArgs seconds millis)
  rw [hprinted, stamp_format] at hprint
  obtain ⟨after, hafter⟩ := hprint
  exact ⟨_, hafter, rfl⟩

/-! ## Reading a stamp -/

/-- The time that a line begins with, in milliseconds. -/
def readStamp (line : List Char8) : Option Nat :=
  (readDigits false 10 (withoutSpaces (line.tail.takeWhile (· ≠ chr '.')))).bind fun seconds =>
    (readDigits false 10 ((line.tail.dropWhile (· ≠ chr '.')).tail.takeWhile (· ≠ chr ']'))).map
      fun millis => seconds * 1000 + millis

/-- A text up to the first of a character that it does not contain. -/
theorem take_until {text rest : List Char8} {stop : Char8} (h : stop ∉ text) :
    (text ++ stop :: rest).takeWhile (· ≠ stop) = text ∧
      (text ++ stop :: rest).dropWhile (· ≠ stop) = stop :: rest := by
  have hall : ∀ ch ∈ text, decide (ch ≠ stop) = true := by
    intro ch hmem
    exact decide_eq_true (ne_of_mem_of_not_mem hmem h)
  rw [List.takeWhile_append_of_pos hall, List.dropWhile_append_of_pos hall]
  simp

/-- A stamp is read field by field. -/
theorem read_stamp_fields {seconds millis : List Char8} (hseconds : chr '.' ∉ seconds)
    (hmillis : chr ']' ∉ millis) (text : List Char8) :
    readStamp (chr '[' :: (seconds ++ (chr '.' :: (millis ++ [chr ']', chr ' ']))) ++ text) =
      (readDigits false 10 (withoutSpaces seconds)).bind fun seconds =>
        (readDigits false 10 millis).map fun millis => seconds * 1000 + millis := by
  have htail : (chr '[' :: (seconds ++ (chr '.' :: (millis ++ [chr ']', chr ' ']))) ++ text).tail =
      seconds ++ chr '.' :: (millis ++ chr ']' :: (chr ' ' :: text)) := by
    simp
  rw [readStamp, htail, (take_until hseconds).1, (take_until hseconds).2, List.tail_cons,
    (take_until hmillis).1]

section

variable {n : Int} {width : Int} {pad : Char8}

/-- The characters of a field. -/
theorem mem_int_field {ch : Char8} (h : ch ∈ intField n width (-1) false 0 pad) :
    ch = pad ∨ ch = chr '-' ∨ isDigit ch = true := by
  have hdigit : ch ∈ (intBody n (-1)).reverse → isDigit ch = true := fun hmem =>
    (int_body_digits n (-1)).1 ch (List.mem_reverse.mp hmem)
  have hsign : ch ∈ signOf (prefixOf n 0) → ch = chr '-' := by
    rw [prefixOf, signOf]
    split
    · simp
    · simp
  have hpad : ∀ {k}, ch ∈ List.replicate k (padOf (-1) pad) → ch = pad := fun hmem =>
    List.eq_of_mem_replicate hmem
  rw [intField, layout, if_neg Bool.false_ne_true] at h
  split at h
  · rcases List.mem_append.mp h with hleft | hbody
    · rcases List.mem_append.mp hleft with hmem | hmem
      · exact .inr (.inl (hsign hmem))
      · exact .inl (hpad hmem)
    · exact .inr (.inr (hdigit hbody))
  · rcases List.mem_append.mp h with hleft | hbody
    · rcases List.mem_append.mp hleft with hmem | hmem
      · exact .inl (hpad hmem)
      · exact .inr (.inl (hsign hmem))
    · exact .inr (.inr (hdigit hbody))

/-- A number that is not negative, after its padding. -/
theorem int_field_of_nonneg (width : Int) (pad : Char8) (hlow : 0 ≤ n) :
    ∃ fill, intField n width (-1) false 0 pad =
      List.replicate fill pad ++ numeralText false 10 n.toNat := by
  have hbody : (intBody n (-1)).reverse = numeralText false 10 n.toNat := by
    rw [int_body_eq (.inl (by decide)), zeroExtend, numeralText]
    have habs : n.natAbs = n.toNat := by omega
    simp [habs]
  have hsign : signOf (prefixOf n 0) = [] := by
    rw [prefixOf, if_neg (by omega)]
    rfl
  rw [intField, hbody, hsign, layout, if_neg Bool.false_ne_true]
  refine ⟨width.toNat - (numeralText false 10 n.toNat).length, ?_⟩
  split <;> simp [padOf]

/-- A negative number is no text of digits. -/
theorem read_negative (hneg : n < 0) :
    readDigits false 10 (withoutSpaces (intField n width (-1) false 0 (chr ' '))) = none := by
  have hsign : signOf (prefixOf n 0) = [chr '-'] := by
    rw [prefixOf, if_pos hneg]
    rfl
  have hspace : ¬ padOf (-1) (chr ' ') = chr '0' := by decide
  have hminus : withoutSpaces [chr '-'] = [chr '-'] := by decide
  rw [intField, hsign, layout, if_neg Bool.false_ne_true, if_neg hspace, without_spaces_append,
    without_spaces_append, hminus, padOf, if_neg (by decide), without_spaces_spaces,
    List.nil_append, List.singleton_append, readDigits, List.foldlM_cons]
  rfl

end

/-- Digits after padding. -/
theorem read_padded (n fill : Nat) :
    readDigits false 10 (List.replicate fill (chr '0') ++ numeralText false 10 n) = some n := by
  have hread := @read_number decimal false n fill
  rwa [List.reverse_append, List.reverse_replicate] at hread

/-- A numeral has no spaces. -/
theorem without_spaces_numeral (n : Nat) :
    withoutSpaces (numeralText false 10 n) = numeralText false 10 n := by
  apply without_spaces_of_digits
  intro ch hmem
  rw [numeralText, List.mem_reverse, unsignedChars, List.mem_map] at hmem
  obtain ⟨digit, hdigit, rfl⟩ := hmem
  have hlt : digit < 10 := Numerals.lt_base_of_mem_low_digits (by decide) hdigit
  exact (decimal_char digit hlt).1

/-- The seconds are read back where an `int` holds them. -/
theorem read_seconds (time : BitVec 64) :
    readDigits false 10 (withoutSpaces (stampSeconds time)) =
      if time.toNat / 1000 % 2 ^ 32 < 2 ^ 31 then some (time.toNat / 1000 % 2 ^ 32)
      else none := by
  have harg := signed_arg_none (time / 1000)
  rw [BitVec.toNat_udiv, show (1000 : BitVec 64).toNat = 1000 from rfl] at harg
  rw [stampSeconds]
  split
  · next hpos =>
      rw [if_pos hpos] at harg
      obtain ⟨fill, hfield⟩ := int_field_of_nonneg 9 (chr ' ')
        (show 0 ≤ signedArg .none (time / 1000) by omega)
      have hvalue : (signedArg .none (time / 1000)).toNat = time.toNat / 1000 % 2 ^ 32 := by
        omega
      rw [hfield, hvalue, without_spaces_append, without_spaces_spaces, without_spaces_numeral,
        List.nil_append]
      exact read_padded _ 0
  · next hneg =>
      rw [if_neg hneg] at harg
      exact read_negative (by omega)

/-- The milliseconds are read back. -/
theorem read_millis (time : BitVec 64) :
    readDigits false 10 (stampMillis time) = some (time.toNat % 1000) := by
  have harg := signed_arg_none (time % 1000)
  rw [BitVec.toNat_umod, show (1000 : BitVec 64).toNat = 1000 from rfl, if_pos (by omega)] at harg
  obtain ⟨fill, hfield⟩ := int_field_of_nonneg 3 (chr '0')
    (show 0 ≤ signedArg .none (time % 1000) by omega)
  have hvalue : (signedArg .none (time % 1000)).toNat = time.toNat % 1000 := by omega
  rw [stampMillis, hfield, hvalue]
  exact read_padded _ fill

/-- No field of a stamp contains the character that ends it. -/
theorem stop_not_mem_field (word : BitVec 64) {width : Int} {pad stop : Char8} (hpad : stop ≠ pad)
    (hminus : stop ≠ chr '-') (hdigit : isDigit stop = false) :
    stop ∉ intField (signedArg .none word) width (-1) false 0 pad := by
  intro hmem
  rcases mem_int_field hmem with h | h | h
  · exact hpad h
  · exact hminus h
  · rw [hdigit] at h
    cases h

/-- The number that a stamp shows: the seconds modulo `2 ^ 32`, if that is no negative `int`. -/
theorem read_stamp_text_iff (seconds millis : BitVec 64) (text : List Char8) (time : Nat) :
    readStamp (stampText seconds millis ++ text) = some time ↔
      seconds.toNat / 1000 % 2 ^ 32 < 2 ^ 31 ∧
        seconds.toNat / 1000 % 2 ^ 32 * 1000 + millis.toNat % 1000 = time := by
  have hseconds : chr '.' ∉ stampSeconds seconds :=
    stop_not_mem_field (seconds / 1000) (by decide) (by decide) (by decide)
  have hmillis : chr ']' ∉ stampMillis millis :=
    stop_not_mem_field (millis % 1000) (by decide) (by decide) (by decide)
  rw [stampText, read_stamp_fields hseconds hmillis, read_seconds, read_millis]
  by_cases hpos : seconds.toNat / 1000 % 2 ^ 32 < 2 ^ 31
  · rw [if_pos hpos, and_iff_right hpos]
    exact Option.some_inj
  · rw [if_neg hpos]
    exact iff_of_false nofun fun h => hpos h.1

/-- The time stamp of a line, from two reads of `ms_count` in either order, is the time of the read
for the milliseconds exactly when both are in the same second, and the seconds are an `int`. -/
theorem stamp_reads_back_iff (order : ReadOrder) {first second : BitVec 64} (hle : first ≤ second)
    (hnear : second.toNat / 1000 < first.toNat / 1000 + 2 ^ 32) (text : List Char8) :
    readStamp (order.stamp first second ++ text) = some (order.millis first second).toNat ↔
      first.toNat / 1000 = second.toNat / 1000 ∧ second.toNat / 1000 < 2 ^ 31 := by
  have hsorted : first.toNat ≤ second.toNat := hle
  rw [ReadOrder.stamp, read_stamp_text_iff]
  cases order with
  | secondsFirst =>
      simp only [ReadOrder.seconds, ReadOrder.millis]
      omega
  | millisFirst =>
      simp only [ReadOrder.seconds, ReadOrder.millis]
      omega

/-- The end of a second between the two reads, in either order. -/
theorem late_stamp :
    (readStamp (ReadOrder.secondsFirst.stamp 1999 2000 ++ [chr 'x']) =
        some (ReadOrder.secondsFirst.millis 1999 2000).toNat ↔
      (1999 : BitVec 64).toNat / 1000 = (2000 : BitVec 64).toNat / 1000 ∧
        (2000 : BitVec 64).toNat / 1000 < 2 ^ 31) ∧
    (readStamp (ReadOrder.millisFirst.stamp 1999 2000 ++ [chr 'x']) =
        some (ReadOrder.millisFirst.millis 1999 2000).toNat ↔
      (1999 : BitVec 64).toNat / 1000 = (2000 : BitVec 64).toNat / 1000 ∧
        (2000 : BitVec 64).toNat / 1000 < 2 ^ 31) :=
  ⟨stamp_reads_back_iff .secondsFirst (by decide) (by decide) [chr 'x'],
    stamp_reads_back_iff .millisFirst (by decide) (by decide) [chr 'x']⟩

end SiStultum
