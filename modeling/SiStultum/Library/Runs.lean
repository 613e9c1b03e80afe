import Mathlib.Data.List.Basic

/-!
# Runs of a deterministic step function

A component is a state together with a total step function, and a run is a list of
operations applied from left to right. `run_invariant` is the induction rule for
properties that every step preserves, and `run_invariant_of_meets` is the rule for
properties that only the steps meeting a condition preserve. `run_simulates` is the rule for
a relation with the run of an abstract step function.
-/

namespace Runs

variable {σ ι : Type*} (step : σ → ι → σ)

/-- The state after the operations, taken in order. -/
def run (state : σ) (ops : List ι) : σ :=
  ops.foldl step state

/-- No operation. -/
@[simp] theorem run_nil (state : σ) : run step state [] = state := rfl

/-- The first operation, and then the others. -/
@[simp] theorem run_cons (state : σ) (op : ι) (ops : List ι) :
    run step state (op :: ops) = run step (step state op) ops := rfl

/-- Running a concatenation is running its two halves in turn. -/
theorem run_append (state : σ) (first second : List ι) :
    run step state (first ++ second) = run step (run step state first) second :=
  List.foldl_append

/-- Every operation meets `cond` in the state it is applied to. -/
def Meets (cond : σ → ι → Prop) : σ → List ι → Prop
  | _, [] => True
  | state, op :: ops => cond state op ∧ Meets cond (step state op) ops

variable {step}

/-- A property that one step preserves holds at the end of every run. -/
theorem run_invariant (inv : σ → Prop) (hstep : ∀ state op, inv state → inv (step state op))
    {state : σ} (h : inv state) (ops : List ι) : inv (run step state ops) := by
  induction ops generalizing state with
  | nil => exact h
  | cons op ops ih => exact ih (hstep state op h)

/-- A property that the steps meeting `cond` preserve holds at the end of every run whose steps
all meet `cond`. -/
theorem run_invariant_of_meets (inv : σ → Prop) (cond : σ → ι → Prop)
    (hstep : ∀ state op, inv state → cond state op → inv (step state op))
    {state : σ} (h : inv state) {ops : List ι} (hmeets : Meets step cond state ops) :
    inv (run step state ops) := by
  induction ops generalizing state with
  | nil => exact h
  | cons op ops ih => exact ih (hstep state op h hmeets.1) hmeets.2

/-- A relation with an abstract state that every step meeting `cond` preserves holds at the end of
every run whose steps all meet `cond`: the abstract run simulates the concrete one. -/
theorem run_simulates {τ : Type*} (rel : σ → τ → Prop) (cond : σ → ι → Prop)
    (abstract : τ → ι → τ)
    (hstep : ∀ state view op, rel state view → cond state op →
      rel (step state op) (abstract view op))
    {state : σ} {view : τ} (h : rel state view) {ops : List ι}
    (hmeets : Meets step cond state ops) :
    rel (run step state ops) (run abstract view ops) := by
  induction ops generalizing state view with
  | nil => exact h
  | cons op ops ih => exact ih (hstep state view op h hmeets.1) hmeets.2

/-- The first part of a run meets what the whole run meets. -/
theorem Meets.left {cond : σ → ι → Prop} {state : σ} {first second : List ι}
    (h : Meets step cond state (first ++ second)) : Meets step cond state first := by
  induction first generalizing state with
  | nil => trivial
  | cons op ops ih => exact ⟨h.1, ih h.2⟩

/-- The steps of a run meet a weaker condition too. -/
theorem Meets.mono {cond other : σ → ι → Prop} (himp : ∀ state op, cond state op → other state op)
    {state : σ} {ops : List ι} (h : Meets step cond state ops) : Meets step other state ops := by
  induction ops generalizing state with
  | nil => trivial
  | cons op ops ih => exact ⟨himp _ _ h.1, ih h.2⟩

end Runs
