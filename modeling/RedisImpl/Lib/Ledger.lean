import Mathlib.Algebra.BigOperators.Group.Finset.Basic
import Mathlib.Algebra.Order.BigOperators.Group.Finset
import Mathlib.Algebra.Order.Group.Multiset
import Mathlib.Data.Fintype.Card
import Mathlib.Data.Multiset.Count

/-!
# Ledgers: tokens in places

A ledger says which tokens each place holds, with multiplicity. `total h`: all tokens.

* `Moves h h' t p q`: one token moves from the place `p` to the place `q`; the total stays
  (`Moves.total`). `Enters h h' t q`: a new token enters at `q` (`Enters.total`).
* `existsUnique_place`: if no token is there twice, each one is in exactly one place.
* `sum_update`: a sum over the threads, when one of them changes; `count_update`,
  `exists_of_count_pos`: the number of threads with a property.
-/

namespace RedisImpl
namespace Ledger

section Total

variable {P τ : Type} [Fintype P] [DecidableEq P]

/-- All tokens, wherever they are. -/
def total (h : P → Multiset τ) : Multiset τ := ∑ p, h p

/-- The token `t` moves from `p` to `q`. -/
structure Moves (h h' : P → Multiset τ) (t : τ) (p q : P) : Prop where
  ne : p ≠ q
  taken : h p = t ::ₘ h' p
  given : h' q = t ::ₘ h q
  rest : ∀ x, x ≠ p → x ≠ q → h' x = h x

/-- The new token `t` enters at `q`. -/
structure Enters (h h' : P → Multiset τ) (t : τ) (q : P) : Prop where
  given : h' q = t ::ₘ h q
  rest : ∀ x, x ≠ q → h' x = h x

/-- The tokens of one place, and the others. -/
theorem total_eq (h : P → Multiset τ) (p : P) :
    total h = h p + ∑ x ∈ Finset.univ.erase p, h x :=
  (Finset.add_sum_erase Finset.univ h (Finset.mem_univ p)).symm

theorem Enters.total {h h' : P → Multiset τ} {t : τ} {q : P} (he : Enters h h' t q) :
    total h' = t ::ₘ total h := by
  rw [total_eq h' q, total_eq h q, he.given, Multiset.cons_add]
  congr 2
  exact Finset.sum_congr rfl fun x hx => he.rest x (Finset.ne_of_mem_erase hx)

theorem Moves.total {h h' : P → Multiset τ} {t : τ} {p q : P} (hm : Moves h h' t p q) :
    total h' = total h := by
  -- the ledger in which the token is in neither place
  let h₀ : P → Multiset τ := Function.update h p (h' p)
  have hp : Enters h₀ h t p := by
    refine ⟨?_, fun x hx => ?_⟩
    · simp only [h₀, Function.update_self, hm.taken]
    · simp only [h₀, Function.update_of_ne hx]
  have hq : Enters h₀ h' t q := by
    refine ⟨?_, fun x hx => ?_⟩
    · simp only [h₀, Function.update_of_ne hm.ne.symm, hm.given]
    · by_cases hxp : x = p
      · subst hxp
        simp only [h₀, Function.update_self]
      · simp only [h₀, Function.update_of_ne hxp, hm.rest x hxp hx]
  rw [hp.total, hq.total]

theorem le_total (h : P → Multiset τ) (p : P) : h p ≤ total h := by
  rw [total_eq h p]
  exact Multiset.le_add_right ..

/-- A token that is there once is in exactly one place. -/
theorem existsUnique_place [DecidableEq τ] {h : P → Multiset τ} (hn : (total h).Nodup) {t : τ}
    (ht : t ∈ total h) : ∃! p, t ∈ h p := by
  obtain ⟨p, -, hp⟩ := Multiset.mem_sum.mp ht
  refine ⟨p, hp, fun q hq => ?_⟩
  by_contra hne
  have hcount : (total h).count t ≤ 1 := Multiset.nodup_iff_count_le_one.mp hn t
  rw [total_eq h p, Multiset.count_add] at hcount
  have hqle : h q ≤ ∑ x ∈ Finset.univ.erase p, h x :=
    Finset.single_le_sum (fun _ _ => Multiset.zero_le _)
      (Finset.mem_erase.mpr ⟨hne, Finset.mem_univ q⟩)
  have h1 : 0 < (h p).count t := Multiset.count_pos.mpr hp
  have h2 : 0 < (h q).count t := Multiset.count_pos.mpr hq
  have h3 := Multiset.count_le_of_le t hqle
  omega

end Total

section Count

variable {W β : Type} [Fintype W] [DecidableEq W] (p : β → Bool)

/-- How a sum changes when the thread `w` moves from `f w` to `b`. -/
theorem sum_update (c : β → Nat) (f : W → β) (w : W) (b : β) :
    ∑ v, c (Function.update f w b v) + c (f w) = ∑ v, c (f v) + c b := by
  have hrest : ∑ x ∈ Finset.univ.erase w, c (Function.update f w b x) =
      ∑ x ∈ Finset.univ.erase w, c (f x) :=
    Finset.sum_congr rfl fun x hx => by rw [Function.update_of_ne (Finset.ne_of_mem_erase hx)]
  rw [← Finset.add_sum_erase _ _ (Finset.mem_univ w), hrest,
    ← Finset.add_sum_erase _ (fun x => c (f x)) (Finset.mem_univ w), Function.update_self]
  omega

/-- The number of threads whose state satisfies `p`. -/
def count (f : W → β) : Nat := ∑ w, (p (f w)).toNat

/-- How the number changes when the thread `w` moves from `f w` to `b`. -/
theorem count_update (f : W → β) (w : W) (b : β) :
    count p (Function.update f w b) + (p (f w)).toNat = count p f + (p b).toNat :=
  sum_update (fun x => (p x).toNat) f w b

omit [DecidableEq W] in
/-- A thread that satisfies `p` is counted. -/
theorem exists_of_count_pos {f : W → β} (h : 0 < count p f) : ∃ w, p (f w) = true := by
  obtain ⟨w, -, hw⟩ := Finset.exists_ne_zero_of_sum_ne_zero (Nat.ne_of_gt h)
  refine ⟨w, ?_⟩
  cases hp : p (f w) with
  | true => rfl
  | false =>
    rw [hp] at hw
    exact absurd rfl hw

end Count

end Ledger
end RedisImpl
