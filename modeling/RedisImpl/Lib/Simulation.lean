import RedisImpl.Lib.Sys

/-!
# Refinement mappings, and runs that reach a goal

* `Sys.Refines S T I f`: `f` maps the states of `S` to those of `T` such that a step of `S` is a step
  of `T` or is not seen in `T`. It may use an invariant `I` of `S`. What `S` reaches is mapped to
  what `T` reaches (`Refines.reach`).
* `Sys.Run S C n s s'`: `n` steps from `s` to `s'`, all of which meet the condition `C`.
  `exists_run_of_measure`: if some step that meets `C` makes a measure smaller wherever the goal is
  not reached, then such steps reach it, as many as the measure says at most.
* `Guards owner inside`: the owner of a mutex is the thread inside its section.
-/

namespace RedisImpl
namespace Sys

variable {σ τ ℓ κ : Type} {S : Sys σ ℓ} {T : Sys τ κ}

/-- A step of `S` is mapped to a step of `T`, or to none. -/
structure Refines (S : Sys σ ℓ) (T : Sys τ κ) (I : σ → Prop) (f : σ → τ) : Prop where
  init : ∀ s, S.init s → T.init (f s)
  step : ∀ l s s', I s → S.step l s s' → f s' = f s ∨ ∃ k, T.step k (f s) (f s')

theorem Refines.reach {I : σ → Prop} {f : σ → τ} (h : S.Refines T I f) (hI : S.Inductive I) {s : σ}
    (hs : S.Reach s) : T.Reach (f s) := by
  induction hs with
  | init hi => exact .init (h.init _ hi)
  | step l hr hst ih =>
    rcases h.step l _ _ (hI.reach hr) hst with heq | ⟨k, hk⟩
    · rw [heq]
      exact ih
    · exact .step k ih hk

/-- `n` steps that meet `C`. -/
inductive Run (S : Sys σ ℓ) (C : ℓ → σ → Prop) : Nat → σ → σ → Prop
  | done (s : σ) : Run S C 0 s s
  | step {n : Nat} {s t u : σ} (l : ℓ) : C l s → S.step l s t → Run S C n t u → Run S C (n + 1) s u

theorem Run.reach {C : ℓ → σ → Prop} {n : Nat} {s s' : σ} (h : S.Run C n s s') (hs : S.Reach s) :
    S.Reach s' := by
  induction h with
  | done s => exact hs
  | step l _ hst _ ih => exact ih (.step l hs hst)

/-- Steps that make `m` smaller reach the goal. -/
theorem exists_run_of_measure {C : ℓ → σ → Prop} {I goal : σ → Prop} (hI : S.Inductive I)
    (m : σ → Nat)
    (h : ∀ s, I s → ¬ goal s → ∃ l s', C l s ∧ S.step l s s' ∧ m s' < m s) {s : σ} (hs : I s) :
    ∃ n s', n ≤ m s ∧ S.Run C n s s' ∧ goal s' := by
  induction hm : m s using Nat.strongRecOn generalizing s with
  | ind k ih =>
    subst hm
    by_cases hg : goal s
    · exact ⟨0, s, Nat.zero_le _, .done s, hg⟩
    · obtain ⟨l, t, hc, hst, hlt⟩ := h s hs hg
      obtain ⟨n, u, hn, hrun, hu⟩ := ih (m t) hlt (hI.step l s t hs hst) rfl
      exact ⟨n + 1, u, by omega, .step l hc hst hrun, hu⟩

end Sys

/-- A mutex with its owner, and the threads inside the section that it protects. -/
def Guards {T : Type} (owner : Option T) (inside : T → Bool) : Prop :=
  ∀ t, owner = some t ↔ inside t = true

/-- What a step of the thread `u` does with a mutex: its owner, and whether `u` is inside the section,
before and after. -/
inductive Turn {T : Type} (u : T) : Option T → Bool → Option T → Bool → Prop
  | stay (owner : Option T) (b : Bool) : Turn u owner b owner b
  | lock : Turn u none false (some u) true
  | unlock (owner : Option T) : Turn u owner true none false

namespace Guards

variable {T : Type} {owner owner' : Option T} {inside inside' : T → Bool} {t u : T}

/-- Mutual exclusion. -/
theorem unique (h : Guards owner inside) (ht : inside t = true) (hu : inside u = true) : t = u := by
  have h1 := (h t).mpr ht
  rw [(h u).mpr hu] at h1
  exact (Option.some.inj h1).symm

/-- If the others stay where they are, a step keeps the mutex with the thread in its section. -/
theorem turn (h : Guards owner inside) (ht : Turn u owner (inside u) owner' (inside' u))
    (hi : ∀ t, t ≠ u → inside' t = inside t) : Guards owner' inside' := by
  intro t
  generalize hb : inside u = b at ht
  generalize hb' : inside' u = b' at ht
  by_cases htu : t = u
  · subst htu
    cases ht with
    | stay => rw [hb', ← hb]; exact h t
    | lock => simp [hb']
    | unlock => simp [hb']
  · rw [hi t htu]
    cases ht with
    | stay => exact h t
    | lock =>
      have hout := (h t).symm
      simp [Ne.symm htu] at hout ⊢
      exact hout
    | unlock =>
      refine ⟨fun he => absurd he.symm (Option.some_ne_none t), fun hin => ?_⟩
      exact absurd (h.unique hin hb) htu

end Guards
end RedisImpl
