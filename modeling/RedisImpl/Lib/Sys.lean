/-!
# Transition systems

A system has initial states and labelled steps; the labels say who takes the step.

* `Sys.Reach`: the states that a run reaches. `Sys.restrict C`: the runs whose steps all meet `C`,
  a condition on the label and the state before the step.
* `Sys.Inductive`: a property that holds initially and that every step keeps, so it holds of every
  reachable state (`Inductive.reach`).
-/

namespace RedisImpl

structure Sys (σ ℓ : Type) where
  init : σ → Prop
  step : ℓ → σ → σ → Prop

namespace Sys

variable {σ ℓ : Type} {S : Sys σ ℓ}

/-- The states that a run reaches. -/
inductive Reach (S : Sys σ ℓ) : σ → Prop
  | init {s : σ} : S.init s → Reach S s
  | step {s s' : σ} (l : ℓ) : Reach S s → S.step l s s' → Reach S s'

/-- The system whose steps meet the condition `C`. -/
def restrict (S : Sys σ ℓ) (C : ℓ → σ → Prop) : Sys σ ℓ where
  init := S.init
  step l s s' := S.step l s s' ∧ C l s

/-- It holds initially and every step keeps it. -/
structure Inductive (S : Sys σ ℓ) (I : σ → Prop) : Prop where
  init : ∀ s, S.init s → I s
  step : ∀ l s s', I s → S.step l s s' → I s'

/-- An inductive property holds in every state of every run. -/
theorem Inductive.reach {I : σ → Prop} (h : S.Inductive I) {s : σ} (hs : S.Reach s) : I s := by
  induction hs with
  | init hi => exact h.init _ hi
  | step l _ hst ih => exact h.step l _ _ ih hst

end Sys
end RedisImpl
