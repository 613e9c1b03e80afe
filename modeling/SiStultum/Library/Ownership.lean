import Mathlib.Data.Set.Insert
import SiStultum.Library.Runs

/-!
# Exclusive ownership of a set of resources

An allocator is, to its clients, a set of taken resources. Clients take and give back
sets of their choice, and the allocator hands out single resources that were not taken.
`run_keeps` says a taken resource stays taken until somebody releases it, so that the
allocator cannot hand it out again.
-/

namespace Ownership

variable {ι : Type*}

/-- What one call does to the set of taken resources. -/
inductive Action (ι : Type*) where
  | acquire (resources : Set ι)
  | release (resources : Set ι)
  | allocate (resource : ι)
  | skip

namespace Action

/-- The taken resources after an action. -/
def apply (taken : Set ι) : Action ι → Set ι
  | .acquire resources => taken ∪ resources
  | .release resources => taken \ resources
  | .allocate resource => insert resource taken
  | .skip => taken

/-- An allocation hands out a resource that is not taken. -/
def Enabled (taken : Set ι) : Action ι → Prop
  | .allocate resource => resource ∉ taken
  | _ => True

/-- The action gives the resource back. -/
def Releases (resource : ι) : Action ι → Prop
  | .release resources => resource ∈ resources
  | _ => False

/-- The action is about the resource. -/
def Mentions (resource : ι) : Action ι → Prop
  | .acquire resources => resource ∈ resources
  | .release resources => resource ∈ resources
  | .allocate allocated => resource = allocated
  | .skip => False

variable {taken : Set ι} {resource : ι}

/-- An action leaves the resources it is not about as they were. -/
theorem mem_apply_of_not_mentions (taken : Set ι) {action : Action ι}
    (h : ¬ action.Mentions resource) :
    resource ∈ action.apply taken ↔ resource ∈ taken := by
  cases action with
  | acquire resources => simpa [apply, Mentions] using fun hmem => absurd hmem h
  | release resources => simpa [apply, Mentions] using fun _ => h
  | allocate allocated => simpa [apply, Mentions] using fun heq => absurd heq h
  | skip => rfl

/-- A taken resource stays taken through every action that does not release it. -/
theorem mem_apply_of_not_releases {action : Action ι} (h : ¬ action.Releases resource)
    (htaken : resource ∈ taken) : resource ∈ action.apply taken := by
  cases action with
  | acquire resources => exact .inl htaken
  | release resources => exact ⟨htaken, h⟩
  | allocate allocated => exact .inr htaken
  | skip => exact htaken

end Action

/-- A taken resource stays taken through every run that does not release it. -/
theorem run_keeps {taken : Set ι} {resource : ι} {actions : List (Action ι)}
    (htaken : resource ∈ taken) (h : ∀ action ∈ actions, ¬ action.Releases resource) :
    resource ∈ Runs.run Action.apply taken actions := by
  induction actions generalizing taken with
  | nil => exact htaken
  | cons action actions ih =>
      exact ih (Action.mem_apply_of_not_releases (h action (by simp)) htaken)
        (fun other hmem => h other (by simp [hmem]))

end Ownership
