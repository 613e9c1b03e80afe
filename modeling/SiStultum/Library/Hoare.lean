import Mathlib.Algebra.Order.Ring.Int
import Mathlib.Tactic.Common

/-!
# Pre- and postconditions of state programs

A program with a state is a `StateM` computation. `Triple pre prog post` says that from a
state meeting `pre` the program ends in a state and with a result meeting `post`. The rules
follow the structure of the program: `Triple.pure`, `Triple.bind` and `Triple.mono`, and
`Keeps` is the case of an invariant.
-/

namespace Hoare

universe u

variable {σ α β : Type u}

/-- From every state meeting `pre` the program leads to a result and a state meeting `post`. -/
def Triple (pre : σ → Prop) (prog : StateM σ α) (post : α → σ → Prop) : Prop :=
  ∀ s, pre s → post (prog s).1 (prog s).2

/-- The program keeps an invariant of the state. -/
def Keeps (inv : σ → Prop) (prog : StateM σ α) : Prop :=
  Triple inv prog fun _ => inv

variable {pre : σ → Prop} {prog : StateM σ α} {next : α → StateM σ β}

/-- Returning a value does not change the state. -/
theorem Triple.pure {value : α} {post : α → σ → Prop} (h : ∀ s, pre s → post value s) :
    Triple pre (Pure.pure value) post :=
  h

/-- Two programs in sequence meet in the middle. -/
theorem Triple.bind {mid : α → σ → Prop} {post : β → σ → Prop} (hfirst : Triple pre prog mid)
    (hnext : ∀ value, Triple (mid value) (next value) post) : Triple pre (prog >>= next) post :=
  fun s hs => hnext _ _ (hfirst s hs)

/-- Strengthening the precondition and weakening the postcondition. -/
theorem Triple.mono {weaker : σ → Prop} {post stronger : α → σ → Prop}
    (h : Triple weaker prog stronger) (hpre : ∀ s, pre s → weaker s)
    (hpost : ∀ value s, stronger value s → post value s) : Triple pre prog post :=
  fun s hs => hpost _ _ (h s (hpre s hs))

/-- A precondition with a parameter that the program does not see. -/
theorem Triple.exists {ι : Type*} {pre : ι → σ → Prop} {post : α → σ → Prop}
    (h : ∀ i, Triple (pre i) prog post) : Triple (fun s => ∃ i, pre i s) prog post :=
  fun s ⟨i, hs⟩ => h i s hs

/-- A program that keeps an invariant can be followed by any program that starts from it. -/
theorem Keeps.bind {inv : σ → Prop} {post : β → σ → Prop} (hfirst : Keeps inv prog)
    (hnext : ∀ value, Triple inv (next value) post) : Triple inv (prog >>= next) post :=
  Triple.bind hfirst hnext

/-- A value keeps every invariant. -/
theorem Keeps.pure {inv : σ → Prop} (value : α) : Keeps inv (Pure.pure value) :=
  fun _ hs => hs

end Hoare
