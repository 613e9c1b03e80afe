import Mathlib.Algebra.Order.Ring.Int
import Mathlib.Data.List.Basic
import Mathlib.Tactic.Common

/-!
# C loops with an `int` counter and a 64-bit bound

`for (int i = 0; i < bound; i++)` with an unsigned 64-bit `bound` compares the
sign-extended counter with the bound. `forInt` is that loop with a counter that wraps
at 32 bits, `for_int_eq_foldl` says that it runs through `0 .. bound - 1` for a bound of at most
`2 ^ 31`, and `for_int_invariant` is its induction rule for every bound.
-/

namespace IntLoop

variable {σ : Type*}

/-- A counter below an unsigned bound is not the last 32-bit value, so it can be incremented. -/
theorem to_nat_succ {counter : BitVec 32} {bound : BitVec 64}
    (h : counter.signExtend 64 < bound) : (counter + 1).toNat = counter.toNat + 1 := by
  have hne : counter ≠ BitVec.allOnes 32 := by
    rintro rfl
    have hone : (BitVec.allOnes 32).signExtend 64 = BitVec.ofNat 64 (2 ^ 64 - 1) := by decide
    rw [hone] at h
    bv_omega
  have hlt : counter.toNat ≠ 2 ^ 32 - 1 := by
    intro heq
    exact hne (BitVec.eq_of_toNat_eq (by simpa using heq))
  bv_omega

/-- `for (int i = counter; i < bound; i++) body(i)`. The increment wraps at 32 bits. -/
def forInt (bound : BitVec 64) (body : BitVec 32 → σ → σ) (counter : BitVec 32) (state : σ) : σ :=
  if _h : counter.signExtend 64 < bound then
    forInt bound body (counter + 1) (body counter state)
  else state
termination_by 2 ^ 32 - counter.toNat
decreasing_by
  have hsucc := to_nat_succ _h
  have _hlt := counter.isLt
  omega

/-- A property that the body preserves holds after the loop. -/
theorem for_int_invariant (inv : σ → Prop) (bound : BitVec 64) (body : BitVec 32 → σ → σ)
    (hbody : ∀ counter state, inv state → inv (body counter state))
    (counter : BitVec 32) {state : σ} (h : inv state) : inv (forInt bound body counter state) := by
  fun_induction forInt bound body counter state with
  | case1 counter state _ ih => exact ih (hbody counter state h)
  | case2 => exact h

/-- A counter that is not negative sign-extends to itself. -/
theorem sign_extend_of_nat {index : Nat} (h : index < 2 ^ 31) :
    ((BitVec.ofNat 32 index).signExtend 64).toNat = index := by
  have hmsb : (BitVec.ofNat 32 index).msb = false := by
    rw [BitVec.msb_eq_false_iff_two_mul_lt, BitVec.toNat_ofNat]
    omega
  rw [BitVec.signExtend_eq_setWidth_of_msb_false hmsb, BitVec.toNat_setWidth, BitVec.toNat_ofNat]
  omega

/-- The first turns of a loop with at least that many. -/
theorem for_int_first {bound : BitVec 64} (body : BitVec 32 → σ → σ) (state : σ) {first : Nat}
    (hfirst : first ≤ bound.toNat) (hint : first ≤ 2 ^ 31) :
    forInt bound body 0 state = forInt bound body (BitVec.ofNat 32 first)
      ((List.range first).foldl (fun state i => body (BitVec.ofNat 32 i) state) state) := by
  induction first with
  | zero => rfl
  | succ first ih =>
      have hlt := sign_extend_of_nat (show first < 2 ^ 31 by omega)
      have hnext : BitVec.ofNat 32 first + 1 = BitVec.ofNat 32 (first + 1) := by
        apply BitVec.eq_of_toNat_eq
        simp
      rw [ih (by omega) (by omega), forInt, dif_pos (by bv_omega), hnext, List.range_succ,
        List.foldl_append]
      rfl

/-- A counter that has reached a bound of at most `2 ^ 31` stops the loop: at `2 ^ 31` it is
negative and extends to a value above the bound. -/
theorem for_int_stop {bound : BitVec 64} (hbound : bound.toNat ≤ 2 ^ 31) :
    ¬ (BitVec.ofNat 32 bound.toNat).signExtend 64 < bound := by
  by_cases hlast : bound.toNat = 2 ^ 31
  · have hneg : (BitVec.ofNat 32 (2 ^ 31)).signExtend 64 = BitVec.ofNat 64 (2 ^ 64 - 2 ^ 31) := by
      decide
    rw [hlast, hneg]
    bv_omega
  · have hsame := sign_extend_of_nat (show bound.toNat < 2 ^ 31 by omega)
    bv_omega

/-- Up to a bound of `2 ^ 31` the loop visits `0, 1, .., bound - 1` in order. -/
theorem for_int_eq_foldl {bound : BitVec 64} (hbound : bound.toNat ≤ 2 ^ 31)
    (body : BitVec 32 → σ → σ) (state : σ) :
    forInt bound body 0 state =
      (List.range bound.toNat).foldl (fun state i => body (BitVec.ofNat 32 i) state) state := by
  rw [for_int_first body state le_rfl hbound, forInt, dif_neg (for_int_stop hbound)]

end IntLoop
