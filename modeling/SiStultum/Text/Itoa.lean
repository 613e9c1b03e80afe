import SiStultum.Formatter.Reading

/-!
# Integers as text

`itoa` and `itoas` of the console write the digits of a number into a buffer and reverse them there,
and `__utoa` and `__itoa` of the formatter do the same. `numerals_written` says which texts they
write, and that these denote the number.
-/

namespace SiStultum

open Numerals Signed

/-- A routine that fills a `char` array and returns it. -/
abbrev BufferRoutine := (size : Nat) → Vector Char8 size → Except Fault (Vector Char8 size)

/-- `itoa`. -/
def itoa (value : BitVec 64) (base : Nat) : BufferRoutine := fun _ buff => do
  let (buff, i) ← digitLoop (fun sum => digitChar true (sum % base)) (fun sum => sum / base) buff 0
    value.toNat
  let buff ← poke buff i 0
  strrev buff

/-- `__utoa`. -/
def utoa (value : BitVec 64) (base : Nat) : BufferRoutine := fun _ buff => do
  let (buff, i) ← digitLoop (fun value => digitChar true (value % base)) (fun value => value / base)
    buff 0 value.toNat
  let buff ← poke buff i 0
  strrev buff

/-- A routine called with `buff + 1`. -/
def onTail (routine : BufferRoutine) : BufferRoutine
  | 0, _ => .error .outOfBounds
  | size + 1, buff => do
      let tail ← routine size buff.tail
      pure (tail.insertIdx 0 buff.head)

/-- `itoas`. The negation of a `long` is the one of two's complement. -/
def itoas (value : BitVec 64) (base : Nat) : BufferRoutine := fun size buff =>
  if value.toInt < 0 then do
    let buff ← onTail (itoa (-value) base) size buff
    poke buff 0 (chr '-')
  else itoa value base size buff

/-- `__itoa`. -/
def signedItoa (value : BitVec 64) (base : Nat) : BufferRoutine := fun size buff =>
  if value.toInt < 0 then do
    let buff ← onTail (utoa (-value) base) size buff
    poke buff 0 (chr '-')
  else utoa value base size buff

/-- A routine writes a NUL-terminated text into every buffer that has room for it. -/
def Writes (routine : BufferRoutine) (text : List Char8) : Prop :=
  0 ∉ text ∧ ∀ (size : Nat) (buff : Vector Char8 size), text.length < size →
    ∃ after, routine size buff = .ok after ∧ text ++ [0] <+: after.toList

/-- The text of a `long`. -/
def signedText (base : DigitBase) (value : BitVec 64) : List Char8 :=
  if value.toInt < 0 then chr '-' :: numeralText true base.val (-value).toNat
  else numeralText true base.val value.toNat

/-- The text after its sign. -/
def unsignedPart (text : List Char8) : List Char8 :=
  if text.head? = some (chr '-') then text.tail else text

/-- The integer that a text denotes. -/
def readInteger (base : Nat) (text : List Char8) : Option Int :=
  (readDigits true base (unsignedPart text)).map fun n : Nat =>
    if text.head? = some (chr '-') then -(n : Int) else n

/-- `0`-`9` or `A`-`Z`. -/
def isUpperDigit (ch : Char8) : Bool :=
  (48 ≤ ch.toNat ∧ ch.toNat ≤ 57) ∨ (65 ≤ ch.toNat ∧ ch.toNat ≤ 90)

/-- A text is the numeral of `n`: a sign for a negative number, and digits without leading zeros
that read back to it. -/
structure IsNumeral (base : DigitBase) (text : List Char8) (n : Int) : Prop where
  minus_iff : text.head? = some (chr '-') ↔ n < 0
  not_empty : unsignedPart text ≠ []
  digits : ∀ ch ∈ unsignedPart text, isUpperDigit ch = true
  leading_zero : (unsignedPart text).head? = some (chr '0') → n = 0 ∧ text = [chr '0']
  reads : readInteger base.val text = some n

/-! ## What is written -/

variable (base : DigitBase)

/-- The digits, `0` among them, are characters other than NUL. -/
theorem not_mem_numeral_text (n : Nat) : 0 ∉ numeralText true base.val n := by
  rw [numeralText, List.mem_reverse]
  exact not_mem_unsigned_chars true base.two_le base.le_letters n

/-- A number of 64 bits has at most 64 digits. -/
theorem length_numeral_text_le (value : BitVec 64) :
    (numeralText true base.val value.toNat).length ≤ 64 := by
  rw [numeralText, List.length_reverse, unsignedChars, List.length_map,
    length_low_digits_le_iff base.two_le (by decide)]
  exact value.isLt.trans_le (Nat.pow_le_pow_left base.two_le 64)

/-- `itoa` writes the numeral of its value. -/
theorem itoa_writes (value : BitVec 64) :
    Writes (itoa value base.val) (numeralText true base.val value.toNat) := by
  refine ⟨not_mem_numeral_text base _, fun size buff hroom => ?_⟩
  have hlength := length_numeral_text_le base value
  rw [numeralText, List.length_reverse] at hroom hlength
  obtain ⟨stored, hloop, hstored⟩ := digit_loop_from_start
    (loop_digits_unsigned true base.two_le value.toNat) buff (Nat.le_of_lt hroom)
  obtain ⟨after, hrev, hafter⟩ := strrev_reverses (set_extends hstored hroom 0)
    (not_mem_unsigned_chars true base.two_le base.le_letters _) (by omega)
  refine ⟨after, ?_, hafter⟩
  simp only [itoa, hloop, ok_bind, poke_of_lt stored hroom, hrev]

/-- A text behind the first character of the buffer. -/
theorem on_tail_writes {routine : BufferRoutine} {text : List Char8} (h : Writes routine text)
    {size : Nat} (buff : Vector Char8 size) (hroom : text.length + 1 < size) :
    ∃ first after, onTail routine size buff = .ok after ∧
      first :: (text ++ [0]) <+: after.toList := by
  cases size with
  | zero => omega
  | succ size =>
      obtain ⟨tail, hroutine, htail⟩ := h.2 size buff.tail (by omega)
      refine ⟨buff.head, tail.insertIdx 0 buff.head, ?_, ?_⟩
      · rw [onTail, hroutine]
        rfl
      · rw [Vector.toList_insertIdx]
        exact List.cons_prefix_cons.mpr ⟨rfl, htail⟩

/-- The sign in front of a text. -/
theorem poke_sign {text : List Char8} {first : Char8} {size : Nat} {buff : Vector Char8 size}
    (h : first :: text <+: buff.toList) (ch : Char8) :
    ∃ after, poke buff 0 ch = .ok after ∧ ch :: text <+: after.toList := by
  obtain ⟨rest, hrest⟩ := h
  have hlength : (first :: text ++ rest).length = size := by rw [hrest, Vector.length_toList]
  have hroom : 0 < size := by
    rw [List.cons_append, List.length_cons] at hlength
    omega
  refine ⟨buff.set 0 ch, poke_of_lt buff hroom ch, rest, ?_⟩
  rw [Vector.toList_set, ← hrest]
  rfl

/-- `itoas` writes a sign and the numeral. -/
theorem itoas_writes (value : BitVec 64) :
    Writes (itoas value base.val) (signedText base value) := by
  rw [signedText]
  by_cases hsign : value.toInt < 0
  · rw [if_pos hsign]
    have hminus : 0 ≠ chr '-' := by decide
    refine ⟨List.not_mem_cons_of_ne_of_not_mem hminus (not_mem_numeral_text base _),
      fun size buff hroom => ?_⟩
    obtain ⟨first, stored, htail, hstored⟩ := on_tail_writes (itoa_writes base (-value)) buff hroom
    obtain ⟨after, hpoke, hafter⟩ := poke_sign hstored (chr '-')
    refine ⟨after, ?_, hafter⟩
    rw [itoas, if_pos hsign, htail, ok_bind, hpoke]
  · rw [if_neg hsign]
    obtain ⟨hnul, hwrites⟩ := itoa_writes base value
    refine ⟨hnul, fun size buff hroom => ?_⟩
    rw [itoas, if_neg hsign]
    exact hwrites size buff hroom

/-! ## What the text denotes -/

/-- A digit is a digit of the alphabet, and `0` is the digit 0. -/
theorem digit_char_facts_upper :
    ∀ digit < 36, isUpperDigit (digitChar true digit) = true ∧
      (digitChar true digit = chr '0' → digit = 0) := by
  decide

/-- The digits of a base are digits and letters. -/
theorem numeral_text_digits (n : Nat) :
    ∀ ch ∈ numeralText true base.val n, isUpperDigit ch = true := by
  intro ch hmem
  rw [numeralText, List.mem_reverse, unsignedChars] at hmem
  obtain ⟨digit, hdigit, rfl⟩ := List.mem_map.mp hmem
  have hlt := lt_base_of_mem_low_digits base.two_le hdigit
  exact (digit_char_facts_upper digit (hlt.trans_le base.le_letters)).1

/-- The highest digit of a number other than 0 is not `0`. -/
theorem numeral_text_head {n : Nat} (hn : n ≠ 0) :
    (numeralText true base.val n).head? ≠ some (chr '0') := by
  have hdigits : lowDigits base.val n = Nat.digits base.val n := if_neg hn
  have hnil : Nat.digits base.val n ≠ [] := Nat.digits_ne_nil_iff_ne_zero.mpr hn
  rw [numeralText, List.head?_reverse, unsignedChars, hdigits, List.getLast?_map,
    List.getLast?_eq_some_getLast hnil, Option.map_some]
  intro hzero
  have hlt : (Nat.digits base.val n).getLast hnil < base.val :=
    Nat.digits_lt_base base.two_le (List.getLast_mem hnil)
  have hlast := (digit_char_facts_upper _ (hlt.trans_le base.le_letters)).2 (Option.some.inj hzero)
  exact Nat.getLast_digit_ne_zero base.val hn hlast

/-- A numeral is not empty. -/
theorem numeral_text_ne_nil (n : Nat) : numeralText true base.val n ≠ [] := by
  intro hnil
  have hlow : lowDigits base.val n = [] := by simpa [numeralText, unsignedChars] using hnil
  rw [lowDigits] at hlow
  split at hlow
  · cases hlow
  · next hn => exact Nat.digits_ne_nil_iff_ne_zero.mpr hn hlow

/-- A text of digits has no sign. -/
theorem head_ne_minus {text : List Char8} (h : ∀ ch ∈ text, isUpperDigit ch = true) :
    text.head? ≠ some (chr '-') := by
  intro hhead
  have hminus := h _ (List.mem_of_head? hhead)
  revert hminus
  decide

/-- The text of a number is its numeral. -/
theorem numeral_text_is_numeral (n : Nat) : IsNumeral base (numeralText true base.val n) n := by
  have hhead := head_ne_minus (numeral_text_digits base n)
  have hpart : unsignedPart (numeralText true base.val n) = numeralText true base.val n :=
    if_neg hhead
  constructor
  case minus_iff => exact ⟨fun h => absurd h hhead, fun h => by omega⟩
  case not_empty =>
    rw [hpart]
    exact numeral_text_ne_nil base n
  case digits =>
    rw [hpart]
    exact numeral_text_digits base n
  case leading_zero =>
    intro hzero
    rw [hpart] at hzero
    have hn : n = 0 := by
      by_contra hn
      exact numeral_text_head base hn hzero
    rw [hn]
    exact ⟨rfl, rfl⟩
  case reads =>
    rw [readInteger, hpart, read_numeral_text, Option.map_some, if_neg hhead]

/-- With a sign it is the numeral of the negative number. -/
theorem negative_is_numeral {n : Nat} (hn : 0 < n) :
    IsNumeral base (chr '-' :: numeralText true base.val n) (-n) := by
  have hpart : unsignedPart (chr '-' :: numeralText true base.val n) =
      numeralText true base.val n :=
    if_pos rfl
  constructor
  case minus_iff => exact ⟨fun _ => by omega, fun _ => rfl⟩
  case not_empty =>
    rw [hpart]
    exact numeral_text_ne_nil base n
  case digits =>
    rw [hpart]
    exact numeral_text_digits base n
  case leading_zero =>
    intro hzero
    rw [hpart] at hzero
    exact absurd hzero (numeral_text_head base (by omega))
  case reads =>
    rw [readInteger, hpart, read_numeral_text]
    rfl

/-- The absolute value of a negative number. -/
theorem neg_to_nat {value : BitVec 64} (hsign : value.toInt < 0) :
    value.toInt = -((-value).toNat : Int) ∧ 0 < (-value).toNat := by
  have hvalue := value.isLt
  rw [BitVec.toInt_eq_toNat_cond] at hsign ⊢
  rw [BitVec.toNat_neg]
  split at hsign <;> omega

/-- The text of a signed number is its numeral. -/
theorem signed_text_is_numeral (value : BitVec 64) :
    IsNumeral base (signedText base value) value.toInt := by
  rw [signedText]
  by_cases hsign : value.toInt < 0
  · obtain ⟨hvalue, hpos⟩ := neg_to_nat hsign
    rw [if_pos hsign, hvalue]
    exact negative_is_numeral base hpos
  · have hvalue : value.toInt = value.toNat := by
      rw [BitVec.toInt_eq_toNat_cond] at hsign ⊢
      split at hsign <;> omega
    rw [if_neg hsign, hvalue]
    exact numeral_text_is_numeral base _

/-- A text is the numeral of one number only. -/
theorem is_numeral_unique {text : List Char8} {n m : Int} (hn : IsNumeral base text n)
    (hm : IsNumeral base text m) : n = m :=
  Option.some.inj (hn.reads.symm.trans hm.reads)

/-- In every base the four routines write the numeral of their argument, and distinct arguments
have distinct numerals. -/
theorem numerals_written (base : DigitBase) :
    (∀ value, Writes (itoa value base.val) (numeralText true base.val value.toNat) ∧
      Writes (utoa value base.val) (numeralText true base.val value.toNat) ∧
      IsNumeral base (numeralText true base.val value.toNat) value.toNat) ∧
    (∀ value, Writes (itoas value base.val) (signedText base value) ∧
      Writes (signedItoa value base.val) (signedText base value) ∧
      IsNumeral base (signedText base value) value.toInt) ∧
    (Function.Injective fun value : BitVec 64 => numeralText true base.val value.toNat) ∧
    Function.Injective (signedText base) := by
  -- the copies of the formatter have the same bodies
  refine ⟨fun value => ⟨itoa_writes base value, itoa_writes base value,
    numeral_text_is_numeral base _⟩,
    fun value => ⟨itoas_writes base value, itoas_writes base value,
      signed_text_is_numeral base value⟩, ?_, ?_⟩
  · intro value other htext
    have hnumeral := numeral_text_is_numeral base value.toNat
    rw [show numeralText true base.val value.toNat = numeralText true base.val other.toNat from
      htext] at hnumeral
    have hvalue := is_numeral_unique base hnumeral (numeral_text_is_numeral base _)
    exact BitVec.eq_of_toNat_eq (by omega)
  · intro value other htext
    have hnumeral := signed_text_is_numeral base value
    rw [htext] at hnumeral
    have hother := signed_text_is_numeral base other
    exact BitVec.eq_of_toInt_eq (is_numeral_unique base hnumeral hother)

end SiStultum
