import SiStultum.Formatter.Emitters

/-!
# What the printers print

`layout` is a field: a sign and a text, padded to a width. The integer printers pad the digits they
stored when these fit in `__str_buff` (`print_int_stored`, `print_unsigned_stored`) and overrun the
buffer otherwise; what they print is the layout of the digits, and they return its length
(`put_int_body`, `put_unsigned_body`).
-/

namespace SiStultum

open Signed Numerals

/-- A sign and a text in a field of at least `width` characters. -/
def layout (sign text : List Char8) (width : Int) (align : Bool) (pad : Char8) : List Char8 :=
  let fill := width.toNat - (sign.length + text.length)
  if align then sign ++ text ++ List.replicate fill (chr ' ')
  else if pad = chr '0' then sign ++ List.replicate fill pad ++ text
  else List.replicate fill pad ++ sign ++ text

/-- A field is as long as its width asks for, or as its text. -/
theorem length_layout (sign text : List Char8) (width : Int) (align : Bool) (pad : Char8) :
    (layout sign text width align pad).length =
      max width.toNat (sign.length + text.length) := by
  rw [layout]
  split
  · simp
    omega
  · split
    · simp
      omega
    · simp
      omega

/-- The characters of an unsigned number from the lowest digit on. -/
def unsignedChars (upper : Bool) (base n : Nat) : List Char8 :=
  (lowDigits base n).map (digitChar upper)

/-- `__print_unsigned` stores the digits of its number. -/
theorem loop_digits_unsigned (upper : Bool) {base : Nat} (hbase : 2 ≤ base) (n : Nat) :
    LoopDigits (fun n => digitChar upper (n % base)) (fun n => n / base) n
      (unsignedChars upper base n) := by
  induction n using Nat.strong_induction_on with
  | _ n ih =>
      by_cases hlast : n / base = 0
      · rw [unsignedChars, low_digits_last hbase hlast, List.map_singleton]
        exact .last hlast
      · rw [unsignedChars, low_digits_step hbase hlast, List.map_cons]
        have hn : n ≠ 0 := by
          rintro rfl
          simp at hlast
        exact .more hlast (ih _ (Nat.div_lt_self (by omega) (by omega)))

/-- `__print_int` stores the digits of the magnitude, as `__print_unsigned` does in base ten. -/
theorem loop_digits_signed (n : Nat) :
    LoopDigits signedDigit (fun n => n.tdiv 10) (n : Int) (unsignedChars false 10 n) := by
  have hdigit : ∀ n : Nat, signedDigit n = digitChar false (n % 10) := by
    intro n
    have hmod : (n : Int).tmod 10 = (n % 10 : Nat) := (Int.ofNat_tmod n 10).symm
    rw [signedDigit, digitChar, if_pos (by omega), hmod]
    rfl
  have hnext : ∀ n : Nat, (n : Int).tdiv 10 = (n / 10 : Nat) := fun n => Int.ofNat_tdiv n 10
  induction n using Nat.strong_induction_on with
  | _ n ih =>
      by_cases hlast : n / 10 = 0
      · rw [unsignedChars, low_digits_last (by decide) hlast, List.map_singleton, ← hdigit]
        refine .last ?_
        rw [hnext, hlast]
        rfl
      · rw [unsignedChars, low_digits_step (by decide) hlast, List.map_cons, ← hdigit]
        refine .more ?_ ?_
        · rw [hnext]
          exact Int.ofNat_ne_zero.mpr hlast
        · rw [hnext]
          exact ih _ (by omega)

/-- A numeral has no NUL. -/
theorem not_mem_unsigned_chars (upper : Bool) {base : Nat} (hbase : 2 ≤ base) (hbound : base ≤ 36)
    (n : Nat) : 0 ∉ unsignedChars upper base n := by
  intro h
  obtain ⟨digit, hmem, hdigit⟩ := List.mem_map.mp h
  have hlt := lt_base_of_mem_low_digits hbase hmem
  have hnat : (digitChar upper digit).toNat = 0 := by rw [hdigit]; rfl
  rw [digitChar] at hnat
  split at hnat
  · rw [BitVec.toNat_ofNat] at hnat
    omega
  · rw [BitVec.toNat_ofNat] at hnat
    split at hnat <;> omega

/-- Digits with the zeros of the precision. -/
def zeroExtend (precision : Int) (chars : List Char8) : List Char8 :=
  chars ++ List.replicate (precision.toNat - chars.length) (chr '0')

/-- Zeros make a numeral as long as the precision asks for. -/
@[simp] theorem length_zero_extend (precision : Int) (chars : List Char8) :
    (zeroExtend precision chars).length = max chars.length precision.toNat := by
  rw [zeroExtend, List.length_append, List.length_replicate]
  omega

/-- They add no NUL. -/
theorem not_mem_zero_extend (precision : Int) {chars : List Char8} (h : 0 ∉ chars) :
    0 ∉ zeroExtend precision chars := by
  rw [zeroExtend, List.mem_append, not_or]
  refine ⟨h, fun hzero => ?_⟩
  have hchr := List.eq_of_mem_replicate hzero
  revert hchr
  decide

section

variable {ν : Type} [Zero ν] [DecidableEq ν] {size : Nat} {digit : ν → Char8} {next : ν → ν}
variable {n : ν} {chars : List Char8} {precision : Int}

/-- Digits and zeros that fit are stored from the start of the buffer on. -/
theorem store_number_writes (hdigits : LoopDigits digit next n chars)
    (hroom : (zeroExtend precision chars).length ≤ size) (buff : Vector Char8 size) :
    ∃ after, storeNumber digit next precision buff n =
        .ok (after, (zeroExtend precision chars).length) ∧
      zeroExtend precision chars <+: after.toList := by
  rw [length_zero_extend] at hroom ⊢
  obtain ⟨stored, hloop, hstored⟩ := digit_loop_from_start hdigits buff (by omega)
  obtain ⟨after, hzeros, hafter⟩ := zero_loop_writes hstored hroom
  refine ⟨after, ?_, hafter⟩
  rw [storeNumber, hloop, ok_bind]
  exact hzeros

/-- Digits and zeros that do not fit overrun the buffer. -/
theorem store_number_overruns (hdigits : LoopDigits digit next n chars)
    (hfull : size < (zeroExtend precision chars).length) (buff : Vector Char8 size) :
    storeNumber digit next precision buff n = .error .outOfBounds := by
  rw [length_zero_extend] at hfull
  by_cases hlong : size < chars.length
  · rw [storeNumber, digit_loop_overruns hdigits buff (by omega), error_bind]
  · obtain ⟨stored, hloop, _⟩ := digit_loop_from_start hdigits buff (by omega)
    rw [storeNumber, hloop, ok_bind]
    exact zero_loop_overruns stored (by omega) (by omega)

end

/-- A text that the buffer begins with is printed up to its NUL. -/
theorem put_text_of_start {text chars : List Char8} (hstart : text ++ [0] <+: chars)
    (htext : 0 ∉ text) : putText chars = .ok text := by
  obtain ⟨rest, rfl⟩ := hstart
  induction text with
  | nil => simp [putText]
  | cons c text ih =>
      rw [List.mem_cons, not_or] at htext
      rw [List.cons_append, List.cons_append, putText, if_neg (Ne.symm htext.1), ih htext.2]
      rfl

/-- The stored digits are read back in reverse. -/
theorem read_back_eq {text : List Char8} {buff : StrBuff} (hstart : text <+: buff.toList)
    (htext : 0 ∉ text) (hroom : text.length < 32) :
    ∃ after, readBack buff text.length = .ok (after, text.reverse) := by
  obtain ⟨after, hrev, hafter⟩ :=
    strrev_reverses (set_extends hstart hroom 0) htext (by omega)
  refine ⟨after, ?_⟩
  rw [readBack, poke_of_lt buff hroom, ok_bind, hrev, ok_bind,
    put_text_of_start hafter (by simpa using htext)]
  rfl

/-- A text as long as the buffer leaves no place for its NUL. -/
theorem read_back_overruns (buff : StrBuff) {len : Nat} (h : 32 ≤ len) :
    readBack buff len = .error .outOfBounds := by
  rw [readBack, poke_full buff h, error_bind]

/-- The padding loop while its counter does not overflow. -/
theorem pad_loop_eq (pad : Char8) {width cnt : Int} (hlow : 0 ≤ cnt)
    (hhigh : cnt + width.toNat < 2 ^ 31) :
    padLoop pad width cnt = ⟨List.replicate width.toNat pad, cnt + width.toNat⟩ := by
  induction hwidth : width.toNat generalizing width cnt with
  | zero =>
      rw [padLoop, if_neg (by omega)]
      simp
  | succ k ih =>
      rw [padLoop, if_pos (by omega), int32_of_fits (by omega) (by omega),
        ih (by omega) (by omega) (by omega)]
      simp only [List.replicate_succ, Printed.mk.injEq, true_and]
      omega

/-- A prefix character, if there is one. -/
def signOf (prefixChar : Char8) : List Char8 :=
  if prefixChar ≠ 0 then [prefixChar] else []

section

variable {text : List Char8} {width : Int}

/-- The last part of `__print_unsigned` prints a field and counts it. -/
theorem put_unsigned_eq (htext : text.length < 32) (hlow : -1 ≤ width) (hhigh : width < 2 ^ 31)
    (align : Bool) (pad : Char8) :
    putUnsigned text text.length width align pad =
      ⟨layout [] text width align pad, (layout [] text width align pad).length⟩ := by
  have hwidth : int32 (width - text.length) = width - text.length :=
    int32_of_fits (by omega) (by omega)
  have hfill : (width - text.length).toNat = width.toNat - text.length := by omega
  rw [length_layout, List.length_nil, Nat.zero_add, putUnsigned, layout, List.length_nil,
    Nat.zero_add]
  cases align with
  | true =>
      have hspaces := pad_loop_eq (chr ' ') (show (0 : Int) ≤ text.length by omega)
        (show (text.length : Int) + (width - text.length).toNat < 2 ^ 31 by omega)
      simp only [hwidth, hspaces, hfill, if_true, List.nil_append, Printed.mk.injEq, true_and]
      omega
  | false =>
      have hpadding := pad_loop_eq pad (show (0 : Int) ≤ 0 by omega)
        (show (0 : Int) + (width - text.length).toNat < 2 ^ 31 by omega)
      have hcnt : int32 (0 + (width.toNat - text.length : Nat) + text.length) =
          (max width.toNat text.length : Nat) := by
        rw [int32_of_fits (by omega) (by omega)]
        omega
      simp only [hwidth, hpadding, hfill, hcnt, Bool.false_eq_true, if_false, List.nil_append,
        List.append_nil, ite_self]

/-- Without a prefix character the two printers pad alike. -/
theorem put_int_unsigned (htext : text.length < 32) (align : Bool) (pad : Char8) :
    putInt text text.length width align 0 pad = putUnsigned text text.length width align pad := by
  have hlength : int32 (text.length : Int) = text.length := int32_of_fits (by omega) (by omega)
  cases align with
  | true => simp [putInt, putUnsigned, hlength]
  | false => simp [putInt, putUnsigned]

/-- The last part of `__print_int` prints a field and counts it. -/
theorem put_int_eq (htext : text.length < 32) (hlow : -1 ≤ width) (hhigh : width < 2 ^ 31)
    (align : Bool) (prefixChar pad : Char8) :
    putInt text text.length width align prefixChar pad =
      ⟨layout (signOf prefixChar) text width align pad,
        (layout (signOf prefixChar) text width align pad).length⟩ := by
  by_cases hsign : prefixChar = 0
  · rw [hsign, put_int_unsigned htext]
    exact put_unsigned_eq htext hlow hhigh align pad
  · have hless : int32 (width - text.length) = width - text.length :=
      int32_of_fits (by omega) (by omega)
    have hwidth : int32 (int32 (width - text.length) - 1) = width - text.length - 1 := by
      rw [hless, int32_of_fits (by omega) (by omega)]
    have hfill : (width - text.length - 1).toNat = width.toNat - (1 + text.length) := by omega
    -- three layouts remain: text then spaces, sign then zeros, spaces then sign
    rw [length_layout, putInt, layout, signOf, if_pos hsign, List.length_singleton]
    cases align with
    | true =>
        have hcnt : int32 (1 + text.length) = 1 + text.length :=
          int32_of_fits (by omega) (by omega)
        have hspaces := pad_loop_eq (chr ' ') (show (0 : Int) ≤ 1 + text.length by omega)
          (show 1 + (text.length : Int) + (width - text.length - 1).toNat < 2 ^ 31 by omega)
        simp only [ne_eq, hsign, not_false_eq_true, hwidth, hcnt, hspaces, hfill, if_true,
          Printed.mk.injEq, true_and]
        omega
    | false =>
        by_cases hpad : pad = chr '0'
        · have hpadding := pad_loop_eq pad (show (0 : Int) ≤ 1 by omega)
            (show 1 + ((width - text.length - 1).toNat : Int) < 2 ^ 31 by omega)
          have hcnt : int32 (1 + (width.toNat - (1 + text.length) : Nat) + text.length) =
              (max width.toNat (1 + text.length) : Nat) := by
            rw [int32_of_fits (by omega) (by omega)]
            omega
          rw [hpad] at hpadding
          simp only [ne_eq, hsign, not_false_eq_true, hpad, not_true_eq_false, and_self, and_false,
            hwidth, hpadding, hfill, hcnt, Bool.false_eq_true, if_true, if_false, List.append_nil]
        · have hpadding := pad_loop_eq pad (show (0 : Int) ≤ 0 by omega)
            (show 0 + ((width - text.length - 1).toNat : Int) < 2 ^ 31 by omega)
          have hcnt : int32 (0 + (width.toNat - (1 + text.length) : Nat) + 1 + text.length) =
              (max width.toNat (1 + text.length) : Nat) := by
            rw [int32_of_fits (by omega) (by omega)]
            omega
          have hadd : int32 (int32 (0 + (width.toNat - (1 + text.length) : Nat) + 1) +
              text.length) = (max width.toNat (1 + text.length) : Nat) := by
            rw [int32_int32_add, hcnt]
          simp only [ne_eq, hsign, not_false_eq_true, hpad, and_self, and_false,
            hwidth, hpadding, hfill, hadd, Bool.false_eq_true, if_true, if_false, List.nil_append]

end

/-! ## The printers -/

/-- What `__print_unsigned` stores in the buffer. -/
def unsignedBody (n : Nat) (precision : Int) (base : Nat) (upper : Bool) : List Char8 :=
  if precision ≠ 0 ∨ n ≠ 0 then zeroExtend precision (unsignedChars upper base n) else []

/-- The digits of an unsigned number have no NUL. -/
theorem not_mem_unsigned_body (n : Nat) (precision : Int) (base : DigitBase) (upper : Bool) :
    0 ∉ unsignedBody n precision base.val upper := by
  rw [unsignedBody]
  split
  · exact not_mem_zero_extend _ (not_mem_unsigned_chars upper base.two_le base.le_letters n)
  · exact List.not_mem_nil

/-- Base ten. -/
def decimal : DigitBase :=
  ⟨10, by decide, by decide⟩

/-- What `__print_int` stores in the buffer: the digits of the magnitude. -/
def intBody (n precision : Int) : List Char8 :=
  unsignedBody n.natAbs precision decimal.val false

/-- The digits of a signed number have no NUL. -/
theorem not_mem_int_body (n precision : Int) : 0 ∉ intBody n precision :=
  not_mem_unsigned_body _ _ decimal _

/-- The padding character that a precision overrides. -/
def padOf (precision : Int) (pad : Char8) : Char8 :=
  if precision > 0 then chr ' ' else pad

/-- The padding that the printer is given. -/
theorem pad_of_cases {precision : Int} {pad : Char8} (hpad : pad = chr ' ' ∨ pad = chr '0') :
    padOf precision pad = chr ' ' ∨ padOf precision pad = chr '0' := by
  rw [padOf]
  split
  · exact .inl rfl
  · exact hpad

/-- The prefix character that a negative number overrides. -/
def prefixOf (n : Int) (prefixChar : Char8) : Char8 :=
  if n < 0 then chr '-' else prefixChar

section

variable {n precision width : Int}

/-- The negation in `__print_int` yields the magnitude, unless it overflows. -/
theorem magnitude_eq (hleast : -2 ^ 63 < n) :
    magnitude n = .ok (n.natAbs : Int) := by
  rw [magnitude]
  split
  · have hfits : FitsLong (-n) := ⟨by omega, by omega⟩
    rw [checkLong, if_pos hfits, Except.ok.injEq]
    omega
  · rw [Except.ok.injEq]
    omega

/-- Up to its padding, `__print_int` stores a number as `__print_unsigned` does. -/
theorem write_int_of_store (hleast : -2 ^ 63 < n) (buff : StrBuff) (prefixChar pad : Char8) :
    writeInt buff n precision prefixChar pad =
      if precision ≠ 0 ∨ n ≠ 0 then do
        let (buff, numLen) ← storeNumber signedDigit (fun n => n.tdiv 10) precision buff
          (n.natAbs : Int)
        pure (buff, numLen, prefixOf n prefixChar, padOf precision pad)
      else pure (buff, 0, prefixChar, pad) := by
  rw [writeInt, magnitude_eq hleast]
  rfl

/-- The digits of a signed number are those of its absolute value. -/
theorem int_body_eq (h : precision ≠ 0 ∨ n ≠ 0) :
    intBody n precision = zeroExtend precision (unsignedChars false 10 n.natAbs) :=
  if_pos (h.imp_right Int.natAbs_ne_zero.mpr)

/-- The digits of a signed number that fit are written to the buffer. -/
theorem write_int_eq (hleast : -2 ^ 63 < n) (buff : StrBuff)
    (hroom : (intBody n precision).length ≤ 32) (prefixChar pad : Char8) :
    ∃ after, writeInt buff n precision prefixChar pad =
        .ok (after, (intBody n precision).length, prefixOf n prefixChar, padOf precision pad) ∧
      intBody n precision <+: after.toList := by
  rw [write_int_of_store hleast]
  by_cases hbody : precision ≠ 0 ∨ n ≠ 0
  · rw [int_body_eq hbody] at hroom ⊢
    obtain ⟨after, hstore, hafter⟩ := store_number_writes (loop_digits_signed _) hroom buff
    refine ⟨after, ?_, hafter⟩
    rw [if_pos hbody, hstore]
    rfl
  · obtain ⟨rfl, rfl⟩ : precision = 0 ∧ n = 0 := by omega
    exact ⟨buff, rfl, List.nil_prefix⟩

/-- Those that do not fit are written beyond it. -/
theorem write_int_overruns (hleast : -2 ^ 63 < n) (buff : StrBuff)
    (hfull : 32 < (intBody n precision).length) (prefixChar pad : Char8) :
    writeInt buff n precision prefixChar pad = .error .outOfBounds := by
  rw [write_int_of_store hleast]
  by_cases hbody : precision ≠ 0 ∨ n ≠ 0
  · rw [int_body_eq hbody] at hfull
    rw [if_pos hbody, store_number_overruns (loop_digits_signed _) hfull, error_bind]
  · obtain ⟨rfl, rfl⟩ : precision = 0 ∧ n = 0 := by omega
    cases hfull

/-- The least `long long` cannot be negated. -/
theorem print_int_overflows (hleast : n ≤ -2 ^ 63) (buff : StrBuff) (align : Bool)
    (prefixChar pad : Char8) :
    printInt buff n width precision align prefixChar pad = .error .overflow := by
  have hunfit : ¬ FitsLong (-n) := fun hfits => by have := hfits.2; omega
  have hmagnitude : magnitude n = .error .overflow := by
    rw [magnitude, if_pos (by omega), checkLong, if_neg hunfit]
  rw [printInt, writeInt, if_pos (Or.inr (by omega)), hmagnitude]
  rfl

/-- `__print_int` pads the digits if they leave room for the NUL. -/
theorem print_int_stored (hleast : -2 ^ 63 < n) (buff : StrBuff)
    (hroom : (intBody n precision).length < 32) (width : Int) (align : Bool)
    (prefixChar pad : Char8) :
    ∃ after, printInt buff n width precision align prefixChar pad =
      .ok (after, putInt (intBody n precision).reverse (intBody n precision).length width align
        (prefixOf n prefixChar) (padOf precision pad)) := by
  obtain ⟨stored, hwrite, hstored⟩ := write_int_eq hleast buff (Nat.le_of_lt hroom) prefixChar pad
  obtain ⟨after, hread⟩ := read_back_eq hstored (not_mem_int_body n precision) hroom
  refine ⟨after, ?_⟩
  simp only [printInt, hwrite, ok_bind, hread]
  rfl

/-- The field that `__print_int` prints. -/
def intField (n width precision : Int) (align : Bool) (prefixChar pad : Char8) : List Char8 :=
  layout (signOf (prefixOf n prefixChar)) (intBody n precision).reverse width align
    (padOf precision pad)

/-- The last part of `__print_int` prints the field and counts it. -/
theorem put_int_body (hroom : (intBody n precision).length < 32) (hlow : -1 ≤ width)
    (hhigh : width < 2 ^ 31) (align : Bool) (prefixChar pad : Char8) :
    putInt (intBody n precision).reverse (intBody n precision).length width align
        (prefixOf n prefixChar) (padOf precision pad) =
      ⟨intField n width precision align prefixChar pad,
        (intField n width precision align prefixChar pad).length⟩ := by
  have htext : (intBody n precision).reverse.length < 32 := by rwa [List.length_reverse]
  have hput := put_int_eq htext hlow hhigh align (prefixOf n prefixChar) (padOf precision pad)
  rwa [List.length_reverse] at hput

/-- A signed conversion leaves the buffer when its digits fill it. -/
theorem print_int_overruns (hleast : -2 ^ 63 < n) (buff : StrBuff)
    (hfull : 32 ≤ (intBody n precision).length) (align : Bool) (prefixChar pad : Char8) :
    printInt buff n width precision align prefixChar pad = .error .outOfBounds := by
  by_cases hlast : (intBody n precision).length ≤ 32
  · obtain ⟨stored, hwrite, _⟩ := write_int_eq hleast buff hlast prefixChar pad
    simp only [printInt, hwrite, ok_bind, read_back_overruns stored hfull, error_bind]
  · rw [printInt, write_int_overruns hleast buff (by omega), error_bind]

end

section

variable {n : Nat} {precision width : Int} {base : DigitBase} {upper : Bool}

/-- The digits of an unsigned number that fit are written to the buffer. -/
theorem write_unsigned_eq (buff : StrBuff)
    (hroom : (unsignedBody n precision base.val upper).length ≤ 32) (pad : Char8) :
    ∃ after, writeUnsigned buff n precision pad base.val upper =
        .ok (after, (unsignedBody n precision base.val upper).length, padOf precision pad) ∧
      unsignedBody n precision base.val upper <+: after.toList := by
  by_cases hbody : precision ≠ 0 ∨ n ≠ 0
  · rw [unsignedBody, if_pos hbody] at hroom ⊢
    obtain ⟨after, hstore, hafter⟩ :=
      store_number_writes (loop_digits_unsigned upper base.two_le n) hroom buff
    refine ⟨after, ?_, hafter⟩
    rw [writeUnsigned, if_pos hbody, hstore]
    rfl
  · obtain ⟨rfl, rfl⟩ : precision = 0 ∧ n = 0 := by omega
    exact ⟨buff, rfl, List.nil_prefix⟩

/-- Those that do not fit are written beyond it. -/
theorem write_unsigned_overruns (buff : StrBuff)
    (hfull : 32 < (unsignedBody n precision base.val upper).length) (pad : Char8) :
    writeUnsigned buff n precision pad base.val upper = .error .outOfBounds := by
  by_cases hbody : precision ≠ 0 ∨ n ≠ 0
  · rw [unsignedBody, if_pos hbody] at hfull
    rw [writeUnsigned, if_pos hbody,
      store_number_overruns (loop_digits_unsigned upper base.two_le n) hfull, error_bind]
  · rw [unsignedBody, if_neg hbody] at hfull
    simp at hfull

/-- `__print_unsigned` pads the digits if they leave room for the NUL. -/
theorem print_unsigned_stored (buff : StrBuff)
    (hroom : (unsignedBody n precision base.val upper).length < 32) (width : Int) (align : Bool)
    (pad : Char8) :
    ∃ after, printUnsigned buff n width precision align pad base.val upper =
      .ok (after, putUnsigned (unsignedBody n precision base.val upper).reverse
        (unsignedBody n precision base.val upper).length width align (padOf precision pad)) := by
  obtain ⟨stored, hwrite, hstored⟩ := write_unsigned_eq buff (Nat.le_of_lt hroom) pad
  obtain ⟨after, hread⟩ := read_back_eq hstored (not_mem_unsigned_body n precision base upper) hroom
  refine ⟨after, ?_⟩
  simp only [printUnsigned, hwrite, ok_bind, hread]
  rfl

/-- The field that `__print_unsigned` prints. -/
def unsignedField (n : Nat) (width precision : Int) (align : Bool) (pad : Char8) (base : Nat)
    (upper : Bool) : List Char8 :=
  layout [] (unsignedBody n precision base upper).reverse width align (padOf precision pad)

/-- The last part of `__print_unsigned` prints the field and counts it. -/
theorem put_unsigned_body (hroom : (unsignedBody n precision base.val upper).length < 32)
    (hlow : -1 ≤ width) (hhigh : width < 2 ^ 31) (align : Bool) (pad : Char8) :
    putUnsigned (unsignedBody n precision base.val upper).reverse
        (unsignedBody n precision base.val upper).length width align (padOf precision pad) =
      ⟨unsignedField n width precision align pad base.val upper,
        (unsignedField n width precision align pad base.val upper).length⟩ := by
  have htext : (unsignedBody n precision base.val upper).reverse.length < 32 := by
    rwa [List.length_reverse]
  have hput := put_unsigned_eq htext hlow hhigh align (padOf precision pad)
  rwa [List.length_reverse] at hput

/-- An unsigned conversion leaves the buffer when its digits fill it. -/
theorem print_unsigned_overruns (buff : StrBuff)
    (hfull : 32 ≤ (unsignedBody n precision base.val upper).length)
    (align : Bool) (pad : Char8) :
    printUnsigned buff n width precision align pad base.val upper = .error .outOfBounds := by
  by_cases hlast : (unsignedBody n precision base.val upper).length ≤ 32
  · obtain ⟨stored, hwrite, _⟩ := write_unsigned_eq buff hlast pad
    simp only [printUnsigned, hwrite, ok_bind, read_back_overruns stored hfull, error_bind]
  · rw [printUnsigned, write_unsigned_overruns buff (by omega), error_bind]

end

/-- The loop that pads with spaces prints as many as are left to its bound. -/
theorem put_spaces_eq (bound i : Int) :
    putSpaces bound i = List.replicate (bound - i).toNat (chr ' ') := by
  induction hrest : (bound - i).toNat generalizing i with
  | zero => rw [putSpaces, if_neg (by omega), List.replicate_zero]
  | succ rest ih =>
      rw [putSpaces, if_pos (by omega), ih (i + 1) (by omega), List.replicate_succ]

/-- A field without a sign that is padded with spaces. -/
theorem layout_spaces (text : List Char8) (width : Int) (align : Bool) :
    layout [] text width align (chr ' ') =
      (if align then [] else List.replicate (width.toNat - text.length) (chr ' ')) ++ text ++
        (if align then List.replicate (width.toNat - text.length) (chr ' ') else []) := by
  have hspace : chr ' ' ≠ chr '0' := by decide
  cases align with
  | true => simp [layout]
  | false => simp [layout, hspace]

/-- `__print_char` prints its character in a field of at least the width. -/
theorem print_char_out {width : Int} (hlow : -1 ≤ width) (hhigh : width < 2 ^ 31) (c : Char8)
    (align : Bool) : (printChar c width align).out = layout [] [c] width align (chr ' ') := by
  have hwidth : int32 (width - 1) = width - 1 := int32_of_fits (by omega) (by omega)
  have hfill : (width - 1 - 0).toNat = width.toNat - 1 := by omega
  rw [printChar, layout_spaces, hwidth, put_spaces_eq, hfill, List.length_singleton]
  cases align with
  | true => simp
  | false => simp

/-- The loop that prints a string prints its first characters. -/
theorem put_string_eq {text s : List Char8} (hstart : text <+: s) {k : Nat}
    (hk : k ≤ text.length) : putString s k = .ok (text.take k) := by
  obtain ⟨rest, rfl⟩ := hstart
  induction text generalizing k with
  | nil =>
      obtain rfl : k = 0 := by simpa using hk
      rw [putString, List.take_zero]
  | cons c text ih =>
      cases k with
      | zero => rw [putString, List.take_zero]
      | succ k =>
          rw [List.cons_append, putString, ih (by simpa using hk), List.take_succ_cons]
          rfl

/-- The part of a string that the precision lets through. -/
def shownOf (text : List Char8) (precision : Int) : List Char8 :=
  if precision ≥ 0 then text.take precision.toNat else text

/-- A precision that is shorter than the text cuts it. -/
theorem length_shown_of (text : List Char8) (precision : Int) :
    ((shownOf text precision).length : Int) =
      if precision ≥ 0 ∧ (text.length : Int) > precision then precision else text.length := by
  rw [shownOf]
  by_cases hprecision : precision ≥ 0
  · rw [if_pos hprecision, List.length_take]
    split <;> omega
  · rw [if_neg hprecision, if_neg (by omega)]

/-- What is shown of a text is its beginning. -/
theorem shown_of_eq_take (text : List Char8) (precision : Int) :
    shownOf text precision = text.take (shownOf text precision).length := by
  rw [shownOf]
  split
  · rw [List.length_take, List.take_eq_take_iff]
    omega
  · rw [List.take_length]

/-- The characters that `__print_str` takes from the string, as an `int`. -/
def shownLength (len : Nat) (precision : Int) : Int :=
  if precision ≥ 0 ∧ int32 len > precision then precision else int32 len

/-- The padding of `__print_str`. -/
def stringPadding (len : Nat) (width precision : Int) : Int :=
  if width > shownLength len precision then int32 (width - shownLength len precision) else 0

/-- What `__print_str` prints of a string of any length, and what it returns. -/
def stringPrinted (text : List Char8) (width precision : Int) (align : Bool) : Printed :=
  let spaces := List.replicate (stringPadding text.length width precision).toNat (chr ' ')
  ⟨(if align then [] else spaces) ++ text.take (shownLength text.length precision).toNat ++
      (if align then spaces else []),
    int32 (shownLength text.length precision + stringPadding text.length width precision)⟩

/-- No more is shown than there is. -/
theorem shown_length_le (len : Nat) (precision : Int) : shownLength len precision ≤ len := by
  have hwrap : int32 len ≤ len := by
    by_cases hfits : (len : Int) < 2 ^ 31
    · rw [int32_of_fits (by omega) hfits]
    · have hupper := int32_upper len
      omega
  rw [shownLength]
  split <;> omega

/-- `__print_str` on a terminated string. -/
theorem print_str_stored {text s : List Char8} (hstart : text ++ [0] <+: s) (htext : 0 ∉ text)
    (width precision : Int) (align : Bool) :
    printStr s width precision align = .ok (stringPrinted text width precision align) := by
  have hle := shown_length_le text.length precision
  have hput := put_string_eq ((List.prefix_append text [0]).trans hstart)
    (show (shownLength text.length precision).toNat ≤ text.length by omega)
  rw [shownLength] at hput
  simp only [printStr, strlen_of_start hstart htext, ok_bind, hput, put_spaces_eq, Int.sub_zero]
  rfl

/-- For strings that an `int` can measure, the field of the shown part and its length. -/
theorem string_printed_eq {text : List Char8} (hlength : text.length < 2 ^ 31) {width : Int}
    (hlow : -1 ≤ width) (hhigh : width < 2 ^ 31) (precision : Int) (align : Bool) :
    stringPrinted text width precision align =
      ⟨layout [] (shownOf text precision) width align (chr ' '),
        (layout [] (shownOf text precision) width align (chr ' ')).length⟩ := by
  have hshown : shownLength text.length precision = (shownOf text precision).length := by
    rw [shownLength, int32_of_fits (by omega) (by omega), length_shown_of]
  have hle := shown_length_le text.length precision
  have hpadding : stringPadding text.length width precision =
      ((width.toNat - (shownOf text precision).length : Nat) : Int) := by
    rw [stringPadding, hshown]
    split
    · rw [int32_of_fits (by omega) (by omega)]
      omega
    · omega
  have hret : int32 ((shownOf text precision).length +
      (width.toNat - (shownOf text precision).length : Nat)) =
      (max width.toNat (shownOf text precision).length : Nat) := by
    rw [int32_of_fits (by omega) (by omega)]
    omega
  rw [length_layout, layout_spaces, List.length_nil, Nat.zero_add]
  simp only [stringPrinted, hshown, hpadding, hret, Int.toNat_natCast, ← shown_of_eq_take]

/-- `__print_str` runs off a string without a NUL. -/
theorem print_str_unterminated {s : List Char8} (hs : 0 ∉ s) (width precision : Int)
    (align : Bool) : printStr s width precision align = .error .outOfBounds := by
  have hstrlen : strlen s = .error .outOfBounds := by
    induction s with
    | nil => rfl
    | cons c s ih =>
        rw [List.mem_cons, not_or] at hs
        rw [strlen, if_neg (Ne.symm hs.1), ih hs.2]
        rfl
  rw [printStr, hstrlen, error_bind]

/-- A terminated string has a part before its first NUL. -/
theorem exists_text_of_mem {s : List Char8} (hs : 0 ∈ s) :
    ∃ text, text ++ [0] <+: s ∧ 0 ∉ text := by
  obtain ⟨text, rest, rfl, htext⟩ := List.eq_append_cons_of_mem hs
  exact ⟨text, ⟨rest, by simp⟩, htext⟩

end SiStultum
