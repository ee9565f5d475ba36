import Mathlib.Logic.Relation
import Mathlib.Tactic.Common

/-!
# Loops

A loop of a program, as what one round of it does: it goes on in a new state or ends with a result.

* `rounds body n s`: the result of the loop when it ends within `n` rounds; `Ends`: it ends.
* `ends_of_measure`: a loop each of whose rounds makes a measure smaller ends. `run` is its result.
* `Ends.rule`: what every round keeps holds where the loop ends; `not_ends`: a loop that stays within
  a set of states where it goes on never ends.
-/

namespace RedisImpl

/-- What one round gives: the loop goes on from a state, or it ends with a result. -/
inductive Round (σ α : Type) where
  | again (s : σ)
  | exit (a : α)
  deriving DecidableEq

namespace Loop

variable {σ α : Type} {body : σ → Round σ α}

/-- The result of the loop from `s`, when it takes at most `n` rounds. -/
def rounds (body : σ → Round σ α) : Nat → σ → Option α
  | 0, _ => none
  | n + 1, s =>
    match body s with
    | .again s' => rounds body n s'
    | .exit a => some a

/-- The loop from `s` ends with `a`. -/
def Ends (body : σ → Round σ α) (s : σ) (a : α) : Prop := ∃ n, rounds body n s = some a

/-- `s'` is the state after some rounds from `s`. -/
def Reaches (body : σ → Round σ α) : σ → σ → Prop :=
  Relation.ReflTransGen fun s s' => body s = .again s'

theorem rounds_again {n : Nat} {s s' : σ} (h : body s = .again s') :
    rounds body (n + 1) s = rounds body n s' := by
  simp only [rounds, h]

theorem rounds_exit {n : Nat} {s : σ} {a : α} (h : body s = .exit a) :
    rounds body (n + 1) s = some a := by
  simp only [rounds, h]

theorem Ends.exit {s : σ} {a : α} (h : body s = .exit a) : Ends body s a :=
  ⟨1, rounds_exit h⟩

theorem Ends.again {s s' : σ} {a : α} (h : body s = .again s') (he : Ends body s' a) :
    Ends body s a := by
  obtain ⟨n, hn⟩ := he
  exact ⟨n + 1, (rounds_again h).trans hn⟩

/-- More rounds than needed change nothing. -/
theorem rounds_mono {n k : Nat} {s : σ} {a : α} (h : rounds body n s = some a) :
    rounds body (n + k) s = some a := by
  induction n generalizing s with
  | zero => simp [rounds] at h
  | succ n ih =>
    rw [Nat.add_right_comm]
    cases hb : body s with
    | again s' =>
      rw [rounds_again hb] at h ⊢
      exact ih h
    | exit b =>
      rw [rounds_exit hb] at h ⊢
      exact h

/-- A loop has one result. -/
theorem Ends.unique {s : σ} {a b : α} (ha : Ends body s a) (hb : Ends body s b) : a = b := by
  obtain ⟨n, hn⟩ := ha
  obtain ⟨k, hk⟩ := hb
  have hn' := rounds_mono (k := k) hn
  have hk' := rounds_mono (k := n) hk
  rw [Nat.add_comm, hn'] at hk'
  exact Option.some.inj hk'

theorem Ends.of_exit {s : σ} {a b : α} (h : Ends body s a) (hb : body s = .exit b) : a = b :=
  h.unique (.exit hb)

theorem Ends.of_again {s s' : σ} {a : α} (h : Ends body s a) (hb : body s = .again s') :
    Ends body s' a := by
  obtain ⟨n, hn⟩ := h
  cases n with
  | zero => simp [rounds] at hn
  | succ n => exact ⟨n, (rounds_again hb).symm.trans hn⟩

/-- The result does not depend on how many rounds have been made. -/
theorem Reaches.ends_iff {s s' : σ} {a : α} (h : Reaches body s s') :
    Ends body s a ↔ Ends body s' a := by
  induction h with
  | refl => exact Iff.rfl
  | tail _ hb ih => exact ih.trans ⟨fun he => he.of_again hb, fun he => he.again hb⟩

/-- The rule for a loop that ended: `inv` holds at the start and is kept by a round that goes on,
and a round that ends from a state with `inv` gives `post`. -/
theorem Ends.rule (inv : σ → Prop) (post : α → Prop)
    (hagain : ∀ s s', inv s → body s = .again s' → inv s')
    (hexit : ∀ s a, inv s → body s = .exit a → post a) {s : σ} {a : α} (hs : inv s)
    (h : Ends body s a) : post a := by
  obtain ⟨n, hn⟩ := h
  induction n generalizing s with
  | zero => simp [rounds] at hn
  | succ n ih =>
    cases hb : body s with
    | again s' =>
      rw [rounds_again hb] at hn
      exact ih (hagain s s' hs hb) hn
    | exit b =>
      rw [rounds_exit hb] at hn
      obtain rfl := Option.some.inj hn
      exact hexit s b hs hb

/-- What every round that goes on keeps holds in every state reached. -/
theorem Reaches.rule (inv : σ → Prop) (hagain : ∀ s s', inv s → body s = .again s' → inv s')
    {s s' : σ} (hs : inv s) (h : Reaches body s s') : inv s' := by
  induction h with
  | refl => exact hs
  | tail _ hb ih => exact hagain _ _ ih hb

/-- A loop that goes on from every state of a set, and stays in it, does not end. -/
theorem not_ends (inv : σ → Prop) (hinv : ∀ s, inv s → ∃ s', body s = .again s' ∧ inv s') {s : σ}
    (hs : inv s) (a : α) : ¬ Ends body s a := by
  intro h
  refine h.rule inv (fun _ => False) ?_ ?_ hs
  · intro t t' ht hb
    obtain ⟨u, hu, hi⟩ := hinv t ht
    rw [hb] at hu
    cases hu
    exact hi
  · intro t b ht hb
    obtain ⟨u, hu, -⟩ := hinv t ht
    rw [hb] at hu
    cases hu

/-! ## Loops with a measure -/

section Measure

variable (m : σ → Nat)

/-- A loop whose rounds all make `m` smaller takes at most `m s + 1` rounds from `s`. -/
theorem rounds_isSome (h : ∀ s s', body s = .again s' → m s' < m s) (s : σ) :
    (rounds body (m s + 1) s).isSome := by
  suffices hn : ∀ n s, m s < n → (rounds body n s).isSome from hn _ s (Nat.lt_succ_self _)
  intro n
  induction n with
  | zero => intro s hs; omega
  | succ n ih =>
    intro s hs
    cases hb : body s with
    | again s' =>
      rw [rounds_again hb]
      have := h s s' hb
      exact ih s' (by omega)
    | exit a => rw [rounds_exit hb]; rfl

/-- The result of a loop whose rounds all make `m` smaller. -/
def run (body : σ → Round σ α) (h : ∀ s s', body s = .again s' → m s' < m s) (s : σ) : α :=
  (rounds body (m s + 1) s).get (rounds_isSome m h s)

variable (h : ∀ s s', body s = .again s' → m s' < m s)

theorem ends_run (s : σ) : Ends body s (run m body h s) :=
  ⟨m s + 1, (Option.some_get _).symm⟩

include h in
/-- Such a loop ends. -/
theorem ends_of_measure (s : σ) : ∃ a, Ends body s a := ⟨_, ends_run m h s⟩

end Measure

end Loop

end RedisImpl
