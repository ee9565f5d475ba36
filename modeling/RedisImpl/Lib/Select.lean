import Mathlib.Data.List.Nodup
import Mathlib.Tactic.Common

/-!
# Selection by patterns

`select m ps es`: the elements that match a pattern, each at the first pattern that it matches.

* `mem_select`, `nodup_select`: each element that matches a pattern is selected, once.
* `pairwise_select`: they are in the order of their first patterns, and those of one pattern in
  their own order.
-/

namespace RedisImpl

variable {π ε : Type} (m : π → ε → Bool)

/-- For each pattern, the elements that match it and no pattern before it. -/
def select : List π → List ε → List ε
  | [], _ => []
  | p :: ps, es => es.filter (m p) ++ select ps (es.filter fun e => !m p e)

variable {m} {ps : List π} {es : List ε} {e : ε}

theorem mem_select : e ∈ select m ps es ↔ e ∈ es ∧ ∃ p ∈ ps, m p e = true := by
  induction ps generalizing es with
  | nil => simp [select]
  | cons p ps ih =>
    rw [select, List.mem_append, ih]
    cases hp : m p e with
    | false => simp [hp]
    | true => simp [hp]

theorem nodup_select (h : es.Nodup) : (select m ps es).Nodup := by
  induction ps generalizing es with
  | nil => exact List.nodup_nil
  | cons p ps ih =>
    refine (h.filter _).append (ih (h.filter _)) ?_
    intro e he he'
    have hm := (List.mem_filter.mp he).2
    have hn := (List.mem_filter.mp (mem_select.mp he').1).2
    rw [hm] at hn
    cases hn

/-- The place of the first pattern that an element matches. -/
def rank (m : π → ε → Bool) (ps : List π) (e : ε) : Nat := ps.findIdx fun p => m p e

/-- The order of the selection: by the first pattern, then as the elements were. -/
theorem pairwise_select {r : ε → ε → Prop} (h : es.Pairwise r) :
    (select m ps es).Pairwise fun a b =>
      rank m ps a < rank m ps b ∨ rank m ps a = rank m ps b ∧ r a b := by
  induction ps generalizing es with
  | nil => exact List.Pairwise.nil
  | cons p ps ih =>
    have hfst : ∀ e, m p e = true → rank m (p :: ps) e = 0 := by
      intro e he
      rw [rank, List.findIdx_cons, he]
      rfl
    have hsnd : ∀ e, m p e = false → rank m (p :: ps) e = rank m ps e + 1 := by
      intro e he
      rw [rank, List.findIdx_cons, he]
      rfl
    refine List.pairwise_append.mpr ⟨?_, ?_, ?_⟩
    · refine (h.filter _).imp_of_mem fun ha hb hr => ?_
      rw [hfst _ (List.mem_filter.mp ha).2, hfst _ (List.mem_filter.mp hb).2]
      exact .inr ⟨rfl, hr⟩
    · have hrest : ∀ e ∈ select m ps (es.filter fun e => !m p e), m p e = false := by
        intro e he
        simpa using (List.mem_filter.mp (mem_select.mp he).1).2
      refine (ih (h.filter _)).imp_of_mem fun ha hb hr => ?_
      rw [hsnd _ (hrest _ ha), hsnd _ (hrest _ hb)]
      exact hr.imp Nat.succ_lt_succ fun ⟨heq, hab⟩ => ⟨congrArg _ heq, hab⟩
    · intro a ha b hb
      have hb' : m p b = false := by simpa using (List.mem_filter.mp (mem_select.mp hb).1).2
      rw [hfst a (List.mem_filter.mp ha).2, hsnd b hb']
      exact .inl (Nat.succ_pos _)

end RedisImpl
