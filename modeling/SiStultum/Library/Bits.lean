import Mathlib.Data.Nat.Bitwise
import Mathlib.Algebra.Order.Ring.Int
import Mathlib.Tactic.Common

/-!
# One bit of a machine word

A C program reads, sets and clears bit `k` of a word through the mask `1 << k`. The
lemmas say what each of the three does to every bit of the word.
-/

namespace Bits

variable {w : Nat}

/-- The mask `1 << k` has bit `k` and no other. -/
theorem get_lsb_mask (k j : Nat) (hj : j < w) :
    (1#w <<< k).getLsbD j = decide (j = k) := by
  rw [BitVec.getLsbD_shiftLeft, BitVec.getLsbD_one]
  by_cases hjk : j = k
  · subst hjk
    simp [hj]
    omega
  · by_cases hlt : j < k
    · simp [hlt, hjk]
    · have hne : ¬ (j - k = 0) := by omega
      simp [hne, hjk]

/-- Testing a word against `1 << k` reads its bit `k`. -/
theorem and_mask_ne_zero (word : BitVec w) {k : Nat} (hk : k < w) :
    word &&& (1#w <<< k) ≠ 0 ↔ word.getLsbD k = true := by
  constructor
  · intro hne
    by_contra hclear
    apply hne
    apply BitVec.eq_of_getLsbD_eq
    intro j hj
    rw [BitVec.getLsbD_and, get_lsb_mask k j hj]
    by_cases hjk : j = k
    · subst hjk
      simp_all
    · simp [hjk]
  · intro hset hzero
    have hbit := congrArg (fun v => v.getLsbD k) hzero
    simp [get_lsb_mask k k hk, hset] at hbit

/-- `word | 1 << k` sets bit `k`. -/
theorem get_lsb_or_mask (word : BitVec w) (k : Nat) {j : Nat} (hj : j < w) :
    (word ||| (1#w <<< k)).getLsbD j = (decide (j = k) || word.getLsbD j) := by
  rw [BitVec.getLsbD_or, get_lsb_mask k j hj, Bool.or_comm]

/-- `word & ~(1 << k)` clears bit `k`. -/
theorem get_lsb_and_not_mask (word : BitVec w) (k : Nat) {j : Nat} (hj : j < w) :
    (word &&& ~~~(1#w <<< k)).getLsbD j = (!decide (j = k) && word.getLsbD j) := by
  rw [BitVec.getLsbD_and, BitVec.getLsbD_not, get_lsb_mask k j hj, Bool.and_comm]
  simp [hj]

/-- A word whose complement is not zero has a clear bit. -/
theorem exists_clear_of_not_ne_zero {word : BitVec w} (h : ~~~word ≠ 0) :
    ∃ k < w, word.getLsbD k = false := by
  by_contra hall
  push Not at hall
  apply h
  apply BitVec.eq_of_getLsbD_eq
  intro k hk
  have hset := hall k hk
  simp_all

/-- Every bit of a word whose complement is zero is set. -/
theorem get_lsb_of_not_eq_zero {word : BitVec w} (h : ~~~word = 0) {k : Nat} (hk : k < w) :
    word.getLsbD k = true := by
  have hbit := congrArg (fun v => v.getLsbD k) h
  simpa [hk] using hbit

end Bits
