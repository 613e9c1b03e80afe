import Mathlib.Data.Finset.Card
import Mathlib.Data.Nat.Count

/-!
# Counting the indices of a map

`countOf value f n` is the number of indices below `n` where `f` has the value, and `countTrue f n`
and `countFalse f n` are these numbers for a boolean map. Changing `f` at one index below `n` moves
one unit from the count of the old value to the count of the new one. `card_values_congr` counts the
different values along a list.
-/

namespace Counting

/-- The number of indices below `n` where `f` is true. -/
def countTrue (f : Nat → Bool) (n : Nat) : Nat :=
  Nat.count (fun i => f i = true) n

/-- The number of indices below `n` where `f` is false. -/
def countFalse (f : Nat → Bool) (n : Nat) : Nat :=
  Nat.count (fun i => f i = false) n

/-- Every index is counted once. -/
theorem count_true_add_false (f : Nat → Bool) (n : Nat) : countTrue f n + countFalse f n = n := by
  induction n with
  | zero => rfl
  | succ n ih =>
      simp only [countTrue, countFalse, Nat.count_succ] at ih ⊢
      cases f n <;> simp <;> omega

/-- The count of true indices depends on the indices below the bound only. -/
theorem count_true_congr {f g : Nat → Bool} {n : Nat} (h : ∀ i < n, f i = g i) :
    countTrue f n = countTrue g n := by
  induction n with
  | zero => rfl
  | succ n ih =>
      have hrest := ih (fun i hi => h i (by omega))
      simp only [countTrue, Nat.count_succ] at hrest ⊢
      rw [hrest, h n (by omega)]

/-- Setting one clear index below the bound counts one more true index. -/
theorem count_true_set {f g : Nat → Bool} {n index : Nat} (hindex : index < n)
    (hf : f index = false) (hg : g index = true) (hother : ∀ i, i ≠ index → g i = f i) :
    countTrue g n = countTrue f n + 1 := by
  induction n with
  | zero => omega
  | succ n ih =>
      by_cases hlast : n = index
      · subst hlast
        have hbelow : countTrue g n = countTrue f n :=
          count_true_congr (fun i hi => hother i (by omega))
        simp only [countTrue, Nat.count_succ] at hbelow ⊢
        rw [hbelow]
        simp [hf, hg]
      · have hbelow := ih (by omega)
        simp only [countTrue, Nat.count_succ] at hbelow ⊢
        rw [hbelow, hother n hlast]
        omega

/-- Setting one clear index below the bound counts one false index less. -/
theorem count_false_set {f g : Nat → Bool} {n index : Nat} (hindex : index < n)
    (hf : f index = false) (hg : g index = true) (hother : ∀ i, i ≠ index → g i = f i) :
    countFalse g n + 1 = countFalse f n := by
  have htrue := count_true_set hindex hf hg hother
  have hfall := count_true_add_false f n
  have hgall := count_true_add_false g n
  omega

/-- A map that is false everywhere counts no true index. -/
theorem count_true_eq_zero {f : Nat → Bool} {n : Nat} (h : ∀ i < n, f i = false) :
    countTrue f n = 0 := by
  rw [countTrue, Nat.count_iff_forall_not]
  intro i hi
  simp [h i hi]

/-- Setting more indices counts at least as many. -/
theorem count_true_mono {f g : Nat → Bool} {n : Nat} (h : ∀ i < n, f i = true → g i = true) :
    countTrue f n ≤ countTrue g n :=
  Nat.count_mono_left h

section Values

variable {α : Type*} [DecidableEq α]

/-- The number of indices below `n` where `f` has the value. -/
def countOf (value : α) (f : Nat → α) (n : Nat) : Nat :=
  Nat.count (fun i => f i = value) n

/-- One number more. -/
theorem count_of_succ (value : α) (f : Nat → α) (n : Nat) :
    countOf value f (n + 1) = countOf value f n + if f n = value then 1 else 0 :=
  Nat.count_succ _ n

/-- The count depends on the values only. -/
theorem count_of_congr (value : α) {f g : Nat → α} {n : Nat} (h : ∀ i < n, f i = g i) :
    countOf value f n = countOf value g n := by
  induction n with
  | zero => rfl
  | succ n ih => rw [count_of_succ, count_of_succ, ih fun i hi => h i (by omega), h n (by omega)]

/-- Changing the map at one index. -/
theorem count_of_update (value : α) (f : Nat → α) {n index : Nat} (hindex : index < n)
    (other : α) :
    countOf value (Function.update f index other) n + (if f index = value then 1 else 0) =
      countOf value f n + if other = value then 1 else 0 := by
  induction n with
  | zero => omega
  | succ n ih =>
      rw [count_of_succ, count_of_succ]
      by_cases hlast : n = index
      · subst hlast
        have hbelow : countOf value (Function.update f n other) n = countOf value f n := by
          refine count_of_congr value fun i hi => ?_
          rw [Function.update_of_ne (by omega)]
        rw [hbelow, Function.update_self]
        omega
      · have hbelow := ih (by omega)
        rw [Function.update_of_ne hlast]
        omega

/-- No more are counted than there are. -/
theorem count_of_le (value : α) (f : Nat → α) (n : Nat) : countOf value f n ≤ n :=
  Nat.count_le _

end Values

/-- Two functions that separate the same items have equally many values along a list. -/
theorem card_values_congr {α β γ : Type*} [DecidableEq β] [DecidableEq γ] {f : α → β} {g : α → γ}
    (hsame : ∀ x y, f x = f y ↔ g x = g y) (items : List α) :
    (items.map f).toFinset.card = (items.map g).toFinset.card := by
  induction items with
  | nil => rfl
  | cons item items ih =>
      have hmem : f item ∈ (items.map f).toFinset ↔ g item ∈ (items.map g).toFinset := by
        simp only [List.mem_toFinset, List.mem_map, hsame]
      rw [List.map_cons, List.map_cons, List.toFinset_cons, List.toFinset_cons,
        Finset.card_insert_eq_ite, Finset.card_insert_eq_ite, ih]
      simp only [hmem]

end Counting
