import SiStultum.Formatter.Strings
import SiStultum.Library.Numerals

/-!
# The printers of one field

`__print_int`, `__print_unsigned`, `__print_char` and `__print_str` return the number they add to
the count of `__proto_print` and the characters they pass to `__putchar`, in order. The two
integer printers write their digits to `__str_buff` from the lowest on and reverse them there.
-/

namespace SiStultum

open Signed Numerals

/-- The type of `__str_buff`. -/
abbrev StrBuff := Vector Char8 32

/-- What a printer passes to `__putchar`, and what it returns. -/
structure Printed where
  out : List Char8
  cnt : Int
  deriving DecidableEq, Repr

section

variable {ν : Type} [Zero ν] [DecidableEq ν] {size : Nat}

/-- `do { __str_buff[len++] = digit(n); n = next(n); } while (n)`. -/
def digitLoop (digit : ν → Char8) (next : ν → ν) (buff : Vector Char8 size) (len : Nat) (n : ν) :
    Except Fault (Vector Char8 size × Nat) :=
  if h : len < size then
    if next n = 0 then .ok (buff.set len (digit n), len + 1)
    else digitLoop digit next (buff.set len (digit n)) (len + 1) (next n)
  else .error .outOfBounds
termination_by size - len

/-- `while (precision > len) __str_buff[len++] = '0'`. -/
def zeroLoop (precision : Int) (buff : Vector Char8 size) (len : Nat) :
    Except Fault (Vector Char8 size × Nat) :=
  if precision > len then
    if h : len < size then zeroLoop precision (buff.set len (chr '0')) (len + 1)
    else .error .outOfBounds
  else .ok (buff, len)
termination_by size - len

/-- The digits of `n` and the zeros of the precision, from the start of the buffer on. -/
def storeNumber (digit : ν → Char8) (next : ν → ν) (precision : Int) (buff : Vector Char8 size)
    (n : ν) : Except Fault (Vector Char8 size × Nat) := do
  let (buff, len) ← digitLoop digit next buff 0 n
  zeroLoop precision buff len

end

/-- `for (int i = 0; __str_buff[i]; i++) __putchar(__str_buff[i])`. -/
def putText : List Char8 → Except Fault (List Char8)
  | [] => .error .outOfBounds
  | c :: rest => if c = 0 then .ok [] else (c :: ·) <$> putText rest

/-- `while (width-- > 0) { __putchar(pad); cnt++; }`. -/
def padLoop (pad : Char8) (width cnt : Int) : Printed :=
  if width > 0 then
    let rest := padLoop pad (width - 1) (int32 (cnt + 1))
    ⟨pad :: rest.out, rest.cnt⟩
  else ⟨[], cnt⟩
termination_by width.toNat

/-- A base whose digits are `0`-`9` and letters. -/
structure DigitBase where
  val : Nat
  two_le : 2 ≤ val
  le_letters : val ≤ 36
  deriving DecidableEq

/-- `'0' + n % 10`. -/
def signedDigit (n : Int) : Char8 :=
  BitVec.ofInt 8 (48 + n.tmod 10)

/-- `'0' + digit` below ten, and `(upper ? 'A' : 'a') + digit - 0xa` above. -/
def digitChar (upper : Bool) (digit : Nat) : Char8 :=
  if digit < 10 then BitVec.ofNat 8 (48 + digit)
  else BitVec.ofNat 8 ((if upper then 65 else 97) + digit - 10)

/-- `if (n < 0) n = -n`, which overflows for the least `long long`. -/
def magnitude (n : Int) : Except Fault Int :=
  if n < 0 then checkLong (-n) else .ok n

/-- The first part of `__print_int`: the digits of `n` from the lowest on, their number, the prefix
and the padding character. -/
def writeInt (buff : StrBuff) (n precision : Int) (prefixChar pad : Char8) :
    Except Fault (StrBuff × Nat × Char8 × Char8) :=
  if precision ≠ 0 ∨ n ≠ 0 then do
    let digits ← magnitude n
    let (buff, numLen) ← storeNumber signedDigit (fun n => n.tdiv 10) precision buff digits
    pure (buff, numLen, if n < 0 then chr '-' else prefixChar,
      if precision > 0 then chr ' ' else pad)
  else pure (buff, 0, prefixChar, pad)

/-- The first part of `__print_unsigned`. -/
def writeUnsigned (buff : StrBuff) (n : Nat) (precision : Int) (pad : Char8) (base : Nat)
    (upper : Bool) : Except Fault (StrBuff × Nat × Char8) :=
  if precision ≠ 0 ∨ n ≠ 0 then do
    let (buff, len) ← storeNumber (fun n => digitChar upper (n % base)) (fun n => n / base)
      precision buff n
    pure (buff, len, if precision > 0 then chr ' ' else pad)
  else pure (buff, 0, pad)

/-- `__str_buff[len] = 0; strrev(__str_buff)`, with the characters of `__str_buff` up to the
first NUL. -/
def readBack (buff : StrBuff) (len : Nat) : Except Fault (StrBuff × List Char8) := do
  let buff ← poke buff len 0
  let buff ← strrev buff
  let text ← putText buff.toList
  pure (buff, text)

/-- The last part of `__print_int`, which pads the field. -/
def putInt (text : List Char8) (numLen : Nat) (width : Int) (align : Bool)
    (prefixChar pad : Char8) : Printed :=
  let width := int32 (width - numLen)
  if align then
    let sign := if prefixChar ≠ 0 then [prefixChar] else []
    let cnt := if prefixChar ≠ 0 then 1 else 0
    let width := if prefixChar ≠ 0 then int32 (width - 1) else width
    let spaces := padLoop (chr ' ') width (int32 (cnt + numLen))
    ⟨sign ++ text ++ spaces.out, spaces.cnt⟩
  else
    let before := if prefixChar ≠ 0 ∧ pad = chr '0' then [prefixChar] else []
    let cnt := if prefixChar ≠ 0 ∧ pad = chr '0' then 1 else 0
    let width := if prefixChar ≠ 0 then int32 (width - 1) else width
    let padding := padLoop pad width cnt
    let after := if prefixChar ≠ 0 ∧ pad ≠ chr '0' then [prefixChar] else []
    let cnt := if prefixChar ≠ 0 ∧ pad ≠ chr '0' then int32 (padding.cnt + 1) else padding.cnt
    ⟨before ++ padding.out ++ after ++ text, int32 (cnt + numLen)⟩

/-- The last part of `__print_unsigned`. -/
def putUnsigned (text : List Char8) (len : Nat) (width : Int) (align : Bool) (pad : Char8) :
    Printed :=
  let width := int32 (width - len)
  if align then
    let spaces := padLoop (chr ' ') width len
    ⟨text ++ spaces.out, spaces.cnt⟩
  else
    let padding := padLoop pad width 0
    ⟨padding.out ++ text, int32 (padding.cnt + len)⟩

/-- `__print_int`. -/
def printInt (buff : StrBuff) (n width precision : Int) (align : Bool) (prefixChar pad : Char8) :
    Except Fault (StrBuff × Printed) := do
  let (buff, numLen, prefixChar, pad) ← writeInt buff n precision prefixChar pad
  let (buff, text) ← readBack buff numLen
  pure (buff, putInt text numLen width align prefixChar pad)

/-- `__print_unsigned`. -/
def printUnsigned (buff : StrBuff) (n : Nat) (width precision : Int) (align : Bool) (pad : Char8)
    (base : Nat) (upper : Bool) : Except Fault (StrBuff × Printed) := do
  let (buff, len, pad) ← writeUnsigned buff n precision pad base upper
  let (buff, text) ← readBack buff len
  pure (buff, putUnsigned text len width align pad)

/-- `for (int i = 0; i < bound; i++) __putchar(' ')`, from `i` on. -/
def putSpaces (bound i : Int) : List Char8 :=
  if i < bound then chr ' ' :: putSpaces bound (i + 1) else []
termination_by (bound - i).toNat

/-- `__print_char`. It returns the width as it is given. -/
def printChar (c : Char8) (width : Int) (align : Bool) : Printed :=
  let spaces := putSpaces (int32 (width - 1)) 0
  ⟨(if align then [c] else []) ++ spaces ++ (if align then [] else [c]), width⟩

/-- `for (int i = 0; i < strLen; i++) __putchar(s[i])`, with `k` turns left. -/
def putString : List Char8 → (k : Nat) → Except Fault (List Char8)
  | _, 0 => .ok []
  | [], _ + 1 => .error .outOfBounds
  | c :: rest, k + 1 => (c :: ·) <$> putString rest k

/-- `__print_str`. The length of the string is stored in an `int`. -/
def printStr (s : List Char8) (width precision : Int) (align : Bool) : Except Fault Printed := do
  let len ← strlen s
  let strLen := int32 len
  let strLen := if precision ≥ 0 ∧ strLen > precision then precision else strLen
  let padLen := if width > strLen then int32 (width - strLen) else 0
  let text ← putString s strLen.toNat
  let spaces := putSpaces padLen 0
  pure ⟨(if align then [] else spaces) ++ text ++ (if align then spaces else []),
    int32 (strLen + padLen)⟩

/-! ## The digits in the buffer -/

section

variable {ν : Type} [Zero ν] [DecidableEq ν] {size : Nat} {digit : ν → Char8} {next : ν → ν}

/-- The characters that the turns of `digitLoop` store. -/
inductive LoopDigits (digit : ν → Char8) (next : ν → ν) : ν → List Char8 → Prop
  | last {n : ν} : next n = 0 → LoopDigits digit next n [digit n]
  | more {n : ν} {chars : List Char8} : next n ≠ 0 → LoopDigits digit next (next n) chars →
      LoopDigits digit next n (digit n :: chars)

/-- The loop appends its digits to the filled part of the buffer. -/
theorem digit_loop_writes {n : ν} {chars : List Char8} (h : LoopDigits digit next n chars)
    {text : List Char8} {buff : Vector Char8 size} (hstart : text <+: buff.toList)
    (hroom : text.length + chars.length ≤ size) :
    ∃ after, digitLoop digit next buff text.length n = .ok (after, text.length + chars.length) ∧
      text ++ chars <+: after.toList := by
  induction h generalizing text buff with
  | @last n hlast =>
      rw [List.length_singleton] at hroom
      have hafter := set_extends hstart (by omega) (digit n)
      exact ⟨_, by rw [digitLoop, dif_pos (by omega), if_pos hlast]; rfl, hafter⟩
  | @more n chars hmore _ ih =>
      rw [List.length_cons] at hroom
      have hafter := set_extends hstart (by omega) (digit n)
      have hlength : (text ++ [digit n]).length = text.length + 1 := List.length_append
      obtain ⟨final, hloop, hfinal⟩ := ih hafter (by omega)
      refine ⟨final, ?_, by simpa using hfinal⟩
      rw [digitLoop, dif_pos (by omega), if_neg hmore, ← hlength, hloop, hlength,
        List.length_cons, Nat.add_assoc, Nat.add_comm 1]

/-- The digits of a number that fit are written from the beginning of the buffer. -/
theorem digit_loop_from_start {n : ν} {chars : List Char8} (h : LoopDigits digit next n chars)
    (buff : Vector Char8 size) (hroom : chars.length ≤ size) :
    ∃ after, digitLoop digit next buff 0 n = .ok (after, chars.length) ∧
      chars <+: after.toList := by
  have hnil : [] <+: buff.toList := List.nil_prefix
  simpa using digit_loop_writes h hnil (by simpa using hroom)

/-- Digits that do not fit overrun the buffer. -/
theorem digit_loop_overruns {n : ν} {chars : List Char8} (h : LoopDigits digit next n chars)
    {len : Nat} (buff : Vector Char8 size) (hfull : size < len + chars.length) :
    digitLoop digit next buff len n = .error .outOfBounds := by
  induction h generalizing len buff with
  | last hlast =>
      rw [List.length_singleton] at hfull
      rw [digitLoop, dif_neg (by omega)]
  | more hmore _ ih =>
      rw [List.length_cons] at hfull
      rw [digitLoop]
      split
      · exact ih _ (by omega)
      · rfl

/-- The zeros of the precision. -/
theorem zero_loop_writes {text : List Char8} {buff : Vector Char8 size} {precision : Int}
    (hstart : text <+: buff.toList) (hroom : max text.length precision.toNat ≤ size) :
    ∃ after, zeroLoop precision buff text.length =
        .ok (after, max text.length precision.toNat) ∧
      text ++ List.replicate (precision.toNat - text.length) (chr '0') <+: after.toList := by
  induction hrest : precision.toNat - text.length generalizing text buff with
  | zero =>
      refine ⟨buff, ?_, by simpa using hstart⟩
      rw [zeroLoop, if_neg (by omega), Nat.max_eq_left (by omega)]
  | succ rest ih =>
      have hafter := set_extends hstart (by omega) (chr '0')
      have hlength : (text ++ [chr '0']).length = text.length + 1 := List.length_append
      obtain ⟨final, hloop, hfinal⟩ := ih hafter (by omega) (by omega)
      refine ⟨final, ?_, by simpa [List.replicate_succ] using hfinal⟩
      rw [zeroLoop, if_pos (by omega), dif_pos (by omega), ← hlength, hloop]
      rw [show max (text ++ [chr '0']).length precision.toNat = max text.length precision.toNat by
        omega]

/-- Zeros that do not fit are written beyond the buffer. -/
theorem zero_loop_overruns {len : Nat} {precision : Int} (buff : Vector Char8 size)
    (hlen : len ≤ size) (hfull : size < precision.toNat) :
    zeroLoop precision buff len = .error .outOfBounds := by
  induction hrest : size - len generalizing len buff with
  | zero => rw [zeroLoop, if_pos (by omega), dif_neg (by omega)]
  | succ rest ih =>
      rw [zeroLoop, if_pos (by omega), dif_pos (by omega)]
      exact ih _ (by omega) (by omega)

end

end SiStultum
