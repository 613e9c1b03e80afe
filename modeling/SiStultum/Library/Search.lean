import Mathlib.Data.List.Basic

/-!
# Searches from the front and from the back

A counting loop that returns from its body is `List.findSome?` over the interval it counts
through. `find_some_range_eq_some_iff` says what such a loop returns.

The last value that a test finds in a list is what the most recent matching entry of a log
says. `last_some_append` and `last_some_concat` compute it as the log grows.
-/

namespace Search

variable {α β : Type*}

/-- The loop returns the value of the first index the test accepts. -/
theorem find_some_range_eq_some_iff {first count : Nat} {test : Nat → Option β} {value : β} :
    (List.range' first count).findSome? test = some value ↔
      ∃ i, first ≤ i ∧ i < first + count ∧ test i = some value ∧
        ∀ j, first ≤ j → j < i → test j = none := by
  induction count generalizing first with
  | zero =>
      simp only [List.range'_zero, List.findSome?_nil, Nat.add_zero]
      constructor
      · intro h
        cases h
      · rintro ⟨i, hlo, hhi, _⟩
        omega
  | succ count ih =>
      rw [List.range'_succ, List.findSome?_cons]
      cases htest : test first with
      | some found =>
          constructor
          · intro h
            exact ⟨first, Nat.le_refl _, by omega, by rw [htest, ← h], fun j hlo hhi => by omega⟩
          · rintro ⟨i, hlo, _, hi, hbefore⟩
            by_cases hfirst : i = first
            · rw [← hi, hfirst, htest]
            · have hnone := hbefore first (Nat.le_refl _) (by omega)
              rw [htest] at hnone
              cases hnone
      | none =>
          simp only [ih]
          constructor
          · rintro ⟨i, hlo, hhi, hi, hbefore⟩
            refine ⟨i, by omega, by omega, hi, fun j hjlo hji => ?_⟩
            -- below the first success lie `first` itself and the indices the rest skipped
            by_cases hfirst : j = first
            · rw [hfirst, htest]
            · exact hbefore j (by omega) hji
          · rintro ⟨i, hlo, hhi, hi, hbefore⟩
            have hne : i ≠ first := by
              rintro rfl
              rw [htest] at hi
              cases hi
            exact ⟨i, by omega, by omega, hi, fun j hjlo hji => hbefore j (by omega) hji⟩

/-- The value of the last element that the test accepts. -/
def lastSome (test : α → Option β) (log : List α) : Option β :=
  log.reverse.findSome? test

/-- An empty log has no entry that the test accepts. -/
@[simp] theorem last_some_nil (test : α → Option β) : lastSome test [] = none := rfl

/-- The later part of a log decides if it has an entry that the test accepts. -/
theorem last_some_append (test : α → Option β) (log more : List α) :
    lastSome test (log ++ more) = (lastSome test more).or (lastSome test log) := by
  rw [lastSome, List.reverse_append, List.findSome?_append, lastSome, lastSome]

/-- A log of one entry. -/
theorem last_some_singleton (test : α → Option β) (entry : α) :
    lastSome test [entry] = test entry := by
  rw [lastSome, List.reverse_singleton, List.findSome?_cons, List.findSome?_nil]
  cases test entry <;> rfl

/-- The newest entry decides if the test accepts it. -/
theorem last_some_concat (test : α → Option β) (log : List α) (entry : α) :
    lastSome test (log ++ [entry]) = (test entry).or (lastSome test log) := by
  rw [last_some_append, last_some_singleton]

/-- The oldest entry decides only if the test accepts no other one. -/
theorem last_some_cons (test : α → Option β) (entry : α) (log : List α) :
    lastSome test (entry :: log) = (lastSome test log).or (test entry) := by
  rw [← List.singleton_append, last_some_append, last_some_singleton]

end Search
