import Mathlib.Data.List.Infix
import Mathlib.Data.List.Induction
import SiStultum.Library.Signed

/-!
# Character arrays

A `char` array is a vector of bytes, and an access outside it is a fault. The part of an array
that a routine has filled is a prefix of it: `set_extends` and `strrev_reverses` say what one
store and the reversal of `string.c` do to that prefix.
-/

namespace SiStultum

open Signed

/-- A C `char`. -/
abbrev Char8 := BitVec 8

/-- The code of an ASCII character. -/
def chr (c : Char) : Char8 :=
  BitVec.ofNat 8 c.toNat

/-- What a C routine does outside its contract. -/
inductive Fault where
  /-- An access past the end of a `char` array. -/
  | outOfBounds
  /-- A read past the end of the format string. -/
  | pastFormat
  /-- A `va_arg` after the last argument. -/
  | noArgument
  /-- A signed operation whose result does not fit its type. -/
  | overflow
  deriving DecidableEq, Repr

/-- An `int` operation with the exact result `x`. -/
def checkInt (x : Int) : Except Fault Int :=
  if FitsInt x then .ok x else .error .overflow

/-- A `long long` operation with the exact result `x`. -/
def checkLong (x : Int) : Except Fault Int :=
  if FitsLong x then .ok x else .error .overflow

section

variable {α β : Type}

/-- A result is passed on. -/
@[simp] theorem ok_bind (value : α) (next : α → Except Fault β) :
    (Except.ok value >>= next) = next value :=
  rfl

/-- A value is a result. -/
@[simp] theorem pure_ok (value : α) : (pure value : Except Fault α) = .ok value :=
  rfl

/-- A fault ends the computation. -/
@[simp] theorem error_bind (fault : Fault) (next : α → Except Fault β) :
    (Except.error fault >>= next) = .error fault :=
  rfl

/-- A sequence that succeeds comes from two steps that succeed. -/
theorem ok_of_bind {step : Except Fault α} {next : α → Except Fault β} {result : β}
    (h : (step >>= next) = .ok result) : ∃ value, step = .ok value ∧ next value = .ok result := by
  cases step with
  | error fault => cases h
  | ok value => exact ⟨value, rfl, h⟩

end

/-- `strlen`, on the readable characters from the pointer on. -/
def strlen : List Char8 → Except Fault Nat
  | [] => .error .outOfBounds
  | c :: rest => if c = 0 then .ok 0 else (· + 1) <$> strlen rest

/-- The characters of a C string. -/
def cString (target : List Char8) : List Char8 :=
  target.takeWhile (· ≠ 0)

/-- A memory that begins with a text and its NUL holds that string. -/
theorem c_string_of_start {text target : List Char8} (hstart : text ++ [0] <+: target)
    (htext : 0 ∉ text) : cString target = text := by
  obtain ⟨rest, rfl⟩ := hstart
  induction text with
  | nil => simp [cString]
  | cons c text ih =>
      rw [List.mem_cons, not_or] at htext
      have hrest := ih htext.2
      rw [cString] at hrest ⊢
      rw [List.cons_append, List.cons_append, List.takeWhile_cons,
        if_pos (by simpa using Ne.symm htext.1), hrest]

variable {size : Nat}

/-- `str[index] = c`. -/
def poke (str : Vector Char8 size) (index : Nat) (c : Char8) :
    Except Fault (Vector Char8 size) :=
  if h : index < size then .ok (str.set index c) else .error .outOfBounds

/-- The loop of `strrev`: `a = str[i]; str[i] = str[j]; str[j] = a`. -/
def strrevLoop (str : Vector Char8 size) (i : Nat) (j : Int) :
    Except Fault (Vector Char8 size) :=
  if i < j then
    if h : i < size ∧ j.toNat < size then strrevLoop (str.swap i j.toNat) (i + 1) (j - 1)
    else .error .outOfBounds
  else .ok str
termination_by (j - i).toNat

/-- `strrev`. The length is stored in an `unsigned`, and `len - 1` in an `int`. -/
def strrev (str : Vector Char8 size) : Except Fault (Vector Char8 size) := do
  let len ← strlen str.toList
  strrevLoop str 0 (int32 (len - 1))

/-- The string before the first NUL. -/
theorem strlen_of_start {text chars : List Char8} (hstart : text ++ [0] <+: chars)
    (htext : 0 ∉ text) : strlen chars = .ok text.length := by
  obtain ⟨rest, rfl⟩ := hstart
  induction text with
  | nil => simp [strlen]
  | cons c text ih =>
      rw [List.mem_cons, not_or] at htext
      rw [List.cons_append, List.cons_append, strlen, if_neg (Ne.symm htext.1), ih htext.2]
      rfl

/-- A store just after the filled part extends it. -/
theorem set_extends {text : List Char8} {str : Vector Char8 size}
    (hstart : text <+: str.toList) (hroom : text.length < size) (c : Char8) :
    text ++ [c] <+: (str.set text.length c).toList := by
  obtain ⟨rest, hrest⟩ := hstart
  refine ⟨rest.tail, ?_⟩
  have hlength : (text ++ rest).length = size := by rw [hrest, Vector.length_toList]
  cases rest with
  | nil => simp at hlength; omega
  | cons d rest => rw [Vector.toList_set, ← hrest]; simp

/-- A write inside the array. -/
theorem poke_of_lt (str : Vector Char8 size) {index : Nat} (h : index < size) (c : Char8) :
    poke str index c = .ok (str.set index c) := by
  rw [poke, dif_pos h]

/-- A swap exchanges two characters and leaves the others. -/
theorem to_list_swap {before middle rest : List Char8} {first last : Char8}
    {str : Vector Char8 size} (hstr : str.toList = before ++ first :: (middle ++ last :: rest))
    (hlow : before.length < size) (hhigh : before.length + middle.length + 1 < size) :
    (str.swap before.length (before.length + middle.length + 1)).toList =
      before ++ last :: (middle ++ first :: rest) := by
  have hfirst : str[before.length] = first := by
    rw [← Vector.getElem_toList (by simpa using hlow)]
    simp [hstr]
  have hlast : str[before.length + middle.length + 1] = last := by
    rw [← Vector.getElem_toList (by simpa using hhigh)]
    simp [hstr, List.getElem_append_right, List.getElem_cons, Nat.add_assoc]
  rw [Vector.toList_swap, hfirst, hlast, hstr]
  simp [Nat.add_assoc]

/-- The loop reverses what lies between its two indices. -/
theorem strrev_loop_reverses (middle : List Char8) :
    ∀ (before rest : List Char8) (str : Vector Char8 size),
      str.toList = before ++ middle ++ rest →
      ∃ after, strrevLoop str before.length (before.length + middle.length - 1) = .ok after ∧
        after.toList = before ++ middle.reverse ++ rest := by
  -- a round swaps the outer two characters, so the induction takes one off each end
  induction middle using List.bidirectionalRec with
  | nil =>
      intro before rest str hstr
      refine ⟨str, ?_, by simpa using hstr⟩
      rw [strrevLoop, if_neg]
      simp only [List.length_nil]
      omega
  | singleton c =>
      intro before rest str hstr
      refine ⟨str, ?_, by simpa using hstr⟩
      rw [strrevLoop, if_neg]
      simp only [List.length_singleton]
      omega
  | cons_append first middle last ih =>
      intro before rest str hstr
      have hlength : before.length + (middle.length + 2) + rest.length = size := by
        have hsize : str.toList.length = size := Vector.length_toList
        rw [← hsize, hstr]
        simp only [List.length_append, List.length_cons, List.length_nil]
      have hlow : before.length < size := by omega
      have hhigh : before.length + middle.length + 1 < size := by omega
      have hswap := to_list_swap (by simpa using hstr) hlow hhigh
      obtain ⟨after, hloop, hafter⟩ :=
        ih (before ++ [last]) (first :: rest) _ (by simpa using hswap)
      refine ⟨after, ?_, by simpa using hafter⟩
      have hj : (before.length + (first :: (middle ++ [last])).length - 1 : Int) =
          ((before.length + middle.length + 1 : Nat) : Int) := by
        simp only [List.length_append, List.length_cons, List.length_nil]
        omega
      rw [strrevLoop, hj, if_pos (by omega), dif_pos (by simpa using ⟨hlow, hhigh⟩)]
      rw [← hloop]
      congr 1
      · simp
      · simp only [List.length_append, List.length_singleton]
        omega

/-- `strrev` reverses the string before the first NUL. -/
theorem strrev_reverses {text : List Char8} {str : Vector Char8 size}
    (hstart : text ++ [0] <+: str.toList) (htext : 0 ∉ text) (hlength : text.length < 2 ^ 31) :
    ∃ after, strrev str = .ok after ∧ text.reverse ++ [0] <+: after.toList := by
  have hstrlen := strlen_of_start hstart htext
  obtain ⟨rest, hrest⟩ := hstart
  obtain ⟨after, hloop, hafter⟩ :=
    strrev_loop_reverses text [] ([0] ++ rest) str (by simpa using hrest.symm)
  refine ⟨after, ?_, rest, by simpa using hafter.symm⟩
  have hwrap : int32 ((text.length : Int) - 1) = text.length - 1 :=
    int32_of_fits (by omega) (by omega)
  rw [strrev, hstrlen, ok_bind, hwrap]
  simpa using hloop

/-- A full array takes no store. -/
theorem poke_full (str : Vector Char8 size) {index : Nat} (h : size ≤ index) (c : Char8) :
    poke str index c = .error .outOfBounds := by
  rw [poke, dif_neg (by omega)]

end SiStultum
