import RedisImpl.Store.FiniteMap

/-!
# When `set` fails

`set` of a new key in a full map doubles both arrays, with two `realloc` calls that may fail. If
only the second one fails, a third call shrinks the first array back, and the map keeps what it
returns. `intact_iff`: a failed `set` leaves the map as it was, unless this third call fails too.
-/

namespace RedisImpl
namespace SimpleMap

variable {κ ν ι : Type} [DecidableEq ι] {id : κ → ι} {sm : SimpleMap κ ν} {es : List (κ × ν)}

/-- The map `sm'` has the arrays, the sizes and the entries of `sm`, and every `get` answers as
before. -/
structure Intact (id : κ → ι) (sm sm' : SimpleMap κ ν) : Prop where
  keys : sm'.keys.isSome
  values : sm'.values.isSome
  capacity : sm'.capacity = sm.capacity
  top : sm'.top = sm.top
  entries : ∀ es, Stores id sm es → Stores id sm' es
  get : ∀ key, sm'.get key (cmpBy id) = sm.get key (cmpBy id)

/-- The map is full, its capacity can double, and of the three `realloc` calls only the first one
succeeds. -/
def LosesKeys (ra : Realloc) (sm : SimpleMap κ ν) : Prop :=
  sm.isFull = true ∧ doubledCapacity sm.capacity ≠ none ∧ ra = ⟨true, false, false⟩

theorem Stores.intact_self (h : Stores id sm es) : Intact id sm sm where
  keys := by
    obtain ⟨kt, hk, -⟩ := h.keys
    rw [hk]
    rfl
  values := by
    obtain ⟨vt, hv, -⟩ := h.values
    rw [hv]
    rfl
  capacity := rfl
  top := rfl
  entries _ h := h
  get _ := rfl

/-- An array that was grown and is shrunk back. -/
theorem resize_resize {α : Type} {xs : List (Option α)} {n c : Nat} (hc : xs.length = c)
    (hn : c ≤ n) : resize (resize xs n) c = xs := by
  subst hc
  simp [resize, List.take_of_length_le hn, hn]

omit [DecidableEq ι] in
/-- What `__double_arrays` leaves when it fails. -/
theorem Stores.doubleArrays_failed (h : Stores id sm es) (hfull : sm.isFull = true)
    (hc : sm.capacity < 2 ^ 31) {ra : Realloc} {sm' : SimpleMap κ ν} (hd : sm.doubleArrays ra = (false, sm')) :
    sm' = { sm with keys := none } ∧ LosesKeys ra sm ∨ sm' = sm ∧ ¬ LosesKeys ra sm := by
  obtain ⟨kt, hk, hkc⟩ := h.keys
  obtain ⟨vt, hv, -⟩ := h.values
  have h0 : sm.capacity ≠ 0 := Int.ne_of_gt h.capacity
  unfold LosesKeys
  simp only [SimpleMap.doubleArrays, hk, hv, h0, hfull, decide_false, Bool.not_true, Bool.or_self,
    Bool.false_eq_true, if_false] at hd
  cases hn : doubledCapacity sm.capacity with
  | none =>
    rw [hn] at hd
    cases hd
    right
    simp
  | some n =>
    obtain ⟨k, v, s⟩ := ra
    rw [hn] at hd
    cases k with
    | false =>
      cases hd
      right
      simp
    | true =>
      cases v with
      | true => cases hd
      | false =>
        -- the keys have grown: the third call gives them back their size, or loses them
        cases s with
        | false =>
          cases hd
          left
          simp [hfull, hv]
        | true =>
          right
          have hle : sm.capacity.toNat ≤ n := by
            have hpos := h.capacity
            by_cases hlarge : 2 ^ 30 ≤ sm.capacity
            · rw [doubledCapacity_none hlarge hc] at hn
              cases hn
            · rw [doubledCapacity_eq (by omega) (by omega)] at hn
              cases hn
              omega
          have hlen : (es.map (fun e => some e.1) ++ kt).length = sm.capacity.toNat := by
            rw [List.length_append, List.length_map]
            omega
          simp only [Bool.not_true, Bool.not_false, Bool.false_eq_true, if_false, if_true,
            resize_resize hlen hle, Prod.mk.injEq, true_and] at hd
          rw [← hd, ← hk, ← hv]
          simp

omit [DecidableEq ι] in
/-- Doubling that succeeds does so without the third call. -/
theorem doubleArrays_ok {ra : Realloc} {sm' : SimpleMap κ ν}
    (h : sm.doubleArrays ra = (true, sm')) : sm.doubleArrays .ok = (true, sm') := by
  unfold doubleArrays at h ⊢
  cases hk : sm.keys with
  | none =>
    rw [hk] at h
    cases h
  | some ks =>
    cases hv : sm.values with
    | none =>
      rw [hk, hv] at h
      cases h
    | some vs =>
      rw [hk, hv] at h
      simp only at h ⊢
      split at h
      · cases h
      · rename_i hc
        rw [if_neg hc]
        cases hn : doubledCapacity sm.capacity with
        | none =>
          rw [hn] at h
          cases h
        | some n =>
          rw [hn] at h
          obtain ⟨k, v, s⟩ := ra
          cases k with
          | false => cases h
          | true =>
            cases v with
            | false => cases h
            | true => exact h

omit [DecidableEq ι] in
/-- A `set` that succeeds does what it does when all allocations succeed. -/
theorem set_ok {ra : Realloc} {kvp : KeyValuePair κ ν} {cmp : κ → κ → Bool}
    (h : (sm.set ra kvp cmp).1 ≠ .errorSetSmRtn) : sm.set ra kvp cmp = sm.set .ok kvp cmp := by
  have hnew : sm.find kvp.key cmp = .keyNotFound → sm.setNew ra kvp = sm.setNew .ok kvp := by
    intro hf
    unfold SimpleMap.set at h
    rw [hf] at h
    unfold setNew at h ⊢
    split
    · rfl
    · rename_i hc
      rw [if_neg hc] at h
      split
      · rename_i hfull
        rw [if_pos hfull] at h
        cases hd : sm.doubleArrays ra with
        | mk b sm' =>
          rw [hd] at h
          cases b with
          | false => exact absurd rfl h
          | true => rw [doubleArrays_ok hd]
      · rfl
  unfold SimpleMap.set
  cases hf : sm.find kvp.key cmp with
  | findKeyError => rfl
  | keyArrError => rfl
  | pos i => rfl
  | keyNotFound => rw [hnew hf]

/-- What `set` leaves when it fails. -/
theorem Stores.set_failed (h : Stores id sm es) (hc : sm.capacity < 2 ^ 31) {ra : Realloc}
    {kvp kvp' : KeyValuePair κ ν} {sm' : SimpleMap κ ν}
    (hs : sm.set ra kvp (cmpBy id) = (.errorSetSmRtn, sm', kvp')) :
    sm' = { sm with keys := none } ∧ LosesKeys ra sm ∨ sm' = sm ∧ ¬ LosesKeys ra sm := by
  cases hl : Keyed.lookup (ident id) es (id kvp.key) with
  | some e =>
    obtain ⟨sm₁, hrun, -⟩ := h.set_upgrade ra kvp hl
    rw [hrun] at hs
    cases hs
  | none =>
    obtain ⟨kt, hk, -⟩ := h.keys
    obtain ⟨vt, hv, -⟩ := h.values
    have h0 : sm.capacity ≠ 0 := Int.ne_of_gt h.capacity
    simp only [SimpleMap.set, h.find_absent hl, SimpleMap.setNew, hk, hv, h0, Option.isNone_some,
      decide_false, Bool.or_self, Bool.false_eq_true, if_false] at hs
    by_cases hfull : sm.isFull = true
    · rw [if_pos hfull] at hs
      cases hd : sm.doubleArrays ra with
      | mk ok sm₁ =>
        rw [hd] at hs
        cases ok with
        | true => cases hs
        | false =>
          cases hs
          exact h.doubleArrays_failed hfull hc hd
    · rw [if_neg hfull] at hs
      cases hs

/-- Where only the first `realloc` succeeds, `set` of a new key fails. -/
theorem Stores.set_losesKeys (h : Stores id sm es) {ra : Realloc} {kvp : KeyValuePair κ ν}
    (hl : Keyed.lookup (ident id) es (id kvp.key) = none) (hr : LosesKeys ra sm) :
    sm.set ra kvp (cmpBy id) = (.errorSetSmRtn, { sm with keys := none }, kvp) := by
  obtain ⟨hfull, hn, rfl⟩ := hr
  obtain ⟨kt, hk, -⟩ := h.keys
  obtain ⟨vt, hv, -⟩ := h.values
  obtain ⟨n, hn⟩ := Option.ne_none_iff_exists'.mp hn
  have h0 : sm.capacity ≠ 0 := Int.ne_of_gt h.capacity
  simp [SimpleMap.set, h.find_absent hl, SimpleMap.setNew, SimpleMap.doubleArrays, hk, hv, h0, hfull,
    hn]

/-- The map is full and cannot be doubled. -/
def NoRoom (ra : Realloc) (sm : SimpleMap κ ν) : Prop :=
  sm.isFull = true ∧ (doubledCapacity sm.capacity = none ∨ ra.keys = false ∨ ra.values = false)

omit [DecidableEq ι] in
theorem Stores.doubleArrays_fails (h : Stores id sm es) (hfull : sm.isFull = true) (ra : Realloc) :
    (sm.doubleArrays ra).1 = false ↔ NoRoom ra sm := by
  obtain ⟨kt, hk, -⟩ := h.keys
  obtain ⟨vt, hv, -⟩ := h.values
  have h0 : sm.capacity ≠ 0 := Int.ne_of_gt h.capacity
  unfold NoRoom
  simp only [SimpleMap.doubleArrays, hk, hv, h0, hfull, decide_false, Bool.not_true, Bool.or_self,
    Bool.false_eq_true, if_false, true_and]
  cases doubledCapacity sm.capacity with
  | none => simp
  | some n =>
    obtain ⟨keys, values, shrink⟩ := ra
    cases keys <;> cases values <;> simp

/-- `set` fails exactly for a new key without room for it. -/
theorem Stores.set_fails_iff (h : Stores id sm es) (ra : Realloc) (kvp : KeyValuePair κ ν) :
    (sm.set ra kvp (cmpBy id)).1 = .errorSetSmRtn ↔
      sm.get kvp.key (cmpBy id) = none ∧ NoRoom ra sm := by
  rw [h.get_eq, Option.map_eq_none_iff]
  cases hl : Keyed.lookup (ident id) es (id kvp.key) with
  | some e =>
    obtain ⟨sm', hset, -⟩ := h.set_upgrade ra kvp hl
    simp [hset]
  | none =>
    obtain ⟨kt, hk, -⟩ := h.keys
    obtain ⟨vt, hv, -⟩ := h.values
    have h0 : sm.capacity ≠ 0 := Int.ne_of_gt h.capacity
    simp only [SimpleMap.set, h.find_absent hl, SimpleMap.setNew, hk, hv, h0, Option.isNone_some,
      decide_false, Bool.or_self, Bool.false_eq_true, if_false, true_and]
    by_cases hfull : sm.isFull = true
    · rw [if_pos hfull, ← h.doubleArrays_fails hfull ra]
      rcases sm.doubleArrays ra with ⟨_ | _, sm'⟩ <;> simp
    · rw [if_neg hfull]
      simp [NoRoom, hfull]

/-- A failed `set` leaves the map as it was, unless the key is new, the map is full, and of the
three `realloc` calls only the first one succeeds. -/
theorem intact_iff (h : Stores id sm es) (hc : sm.capacity < 2 ^ 31) (ra : Realloc)
    (kvp : KeyValuePair κ ν) :
    ((sm.set ra kvp (cmpBy id)).1 = .errorSetSmRtn →
        Intact id sm (sm.set ra kvp (cmpBy id)).2.1) ↔
      ¬ (sm.get kvp.key (cmpBy id) = none ∧ LosesKeys ra sm) := by
  constructor
  · rintro hi ⟨hget, hr⟩
    rw [h.get_eq, Option.map_eq_none_iff] at hget
    rw [h.set_losesKeys hget hr] at hi
    have := (hi rfl).keys
    cases this
  · intro hr herr
    cases hs : sm.set ra kvp (cmpBy id) with
    | mk rtn rest =>
      obtain ⟨sm', kvp'⟩ := rest
      rw [hs] at herr
      subst herr
      rcases h.set_failed hc hs with ⟨-, hl⟩ | ⟨rfl, -⟩
      · cases hlook : Keyed.lookup (ident id) es (id kvp.key) with
        | none =>
          refine absurd ⟨?_, hl⟩ hr
          rw [h.get_eq, hlook]
          rfl
        | some e =>
          obtain ⟨sm₁, hrun, -⟩ := h.set_upgrade ra kvp hlook
          rw [hrun] at hs
          cases hs
      · exact h.intact_self

end SimpleMap

open SimpleMap

/-- A full map with one key. -/
def fullMap : SimpleMap KeyNode Nat := ⟨some [some (plainKey (ascii "a"))], some [some 1], 1, 0⟩

theorem stores_fullMap : Stores KeyNode.id fullMap [(plainKey (ascii "a"), 1)] where
  keys := ⟨[], rfl, rfl⟩
  values := ⟨[], rfl, rfl⟩
  top := rfl
  capacity := by decide
  distinct := by simp [Keyed.Distinct]

theorem intact_iff_fullMap :
    ((fullMap.set ⟨true, false, true⟩ ⟨plainKey (ascii "b"), 2⟩ (cmpBy KeyNode.id)).1 =
        .errorSetSmRtn → Intact KeyNode.id fullMap
          (fullMap.set ⟨true, false, true⟩ ⟨plainKey (ascii "b"), 2⟩ (cmpBy KeyNode.id)).2.1) ↔
      ¬ (fullMap.get (plainKey (ascii "b")) (cmpBy KeyNode.id) = none ∧
        LosesKeys ⟨true, false, true⟩ fullMap) :=
  intact_iff stores_fullMap (by decide) ⟨true, false, true⟩ ⟨plainKey (ascii "b"), 2⟩

/-- The second and the third `realloc` fail: the map loses its keys. -/
theorem fullMap_not_intact :
    ¬ ((fullMap.set ⟨true, false, false⟩ ⟨plainKey (ascii "b"), 2⟩ (cmpBy KeyNode.id)).1 =
        .errorSetSmRtn → Intact KeyNode.id fullMap
          (fullMap.set ⟨true, false, false⟩ ⟨plainKey (ascii "b"), 2⟩ (cmpBy KeyNode.id)).2.1) := by
  intro h
  have hk := (h (by decide)).keys
  revert hk
  decide

end RedisImpl
