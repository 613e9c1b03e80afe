import Mathlib.Algebra.Order.Ring.Int
import Mathlib.Data.Finset.Card
import Mathlib.Order.Interval.Finset.Nat

/-!
# Disjoint intervals below a bound

Half-open intervals of natural numbers that have no number in common and all end at or below
a bound have a total length of at most that bound, in whatever order they come and whatever
gaps they leave.
-/

namespace Intervals

variable {α : Type*} (start length : α → Nat)

/-- `n` is in the interval of `x`. -/
def Contains (x : α) (n : Nat) : Prop :=
  start x ≤ n ∧ n < start x + length x

/-- The numbers that lie in one of the intervals. -/
def covered (intervals : List α) : Finset Nat :=
  intervals.foldr (fun x covered => Finset.Ico (start x) (start x + length x) ∪ covered) ∅

/-- A number is covered when one of the intervals contains it. -/
theorem mem_covered {intervals : List α} {n : Nat} :
    n ∈ covered start length intervals ↔ ∃ x ∈ intervals, Contains start length x n := by
  induction intervals with
  | nil => simp [covered]
  | cons x intervals ih =>
      rw [covered, List.foldr_cons, Finset.mem_union, Finset.mem_Ico]
      rw [covered] at ih
      rw [ih]
      simp [Contains]

/-- Disjoint intervals cover as many numbers as their lengths add up to. -/
theorem card_covered {intervals : List α}
    (hdisjoint : intervals.Pairwise fun x y =>
      ∀ n, ¬ (Contains start length x n ∧ Contains start length y n)) :
    (covered start length intervals).card = (intervals.map length).sum := by
  induction intervals with
  | nil => rfl
  | cons x intervals ih =>
      obtain ⟨hhead, htail⟩ := List.pairwise_cons.mp hdisjoint
      have hsplit : covered start length (x :: intervals) =
          Finset.Ico (start x) (start x + length x) ∪ covered start length intervals := rfl
      have hapart : Disjoint (Finset.Ico (start x) (start x + length x))
          (covered start length intervals) := by
        rw [Finset.disjoint_left]
        intro n hn hcovered
        obtain ⟨y, hy, hcontains⟩ := (mem_covered start length).mp hcovered
        exact hhead y hy n ⟨Finset.mem_Ico.mp hn, hcontains⟩
      rw [hsplit, Finset.card_union_of_disjoint hapart, Nat.card_Ico, ih htail, List.map_cons,
        List.sum_cons]
      omega

/-- Disjoint intervals below a bound are together no longer than the bound. -/
theorem sum_length_le {intervals : List α} {bound : Nat}
    (hbound : ∀ x ∈ intervals, start x + length x ≤ bound)
    (hdisjoint : intervals.Pairwise fun x y =>
      ∀ n, ¬ (Contains start length x n ∧ Contains start length y n)) :
    (intervals.map length).sum ≤ bound := by
  have hsubset : covered start length intervals ⊆ Finset.range bound := by
    intro n hn
    obtain ⟨x, hx, hcontains⟩ := (mem_covered start length).mp hn
    have hle := hbound x hx
    unfold Contains at hcontains
    rw [Finset.mem_range]
    omega
  have hcard := Finset.card_le_card hsubset
  rwa [card_covered start length hdisjoint, Finset.card_range] at hcard

end Intervals
