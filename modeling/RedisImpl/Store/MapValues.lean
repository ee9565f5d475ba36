import RedisImpl.Store.Spec

/-!
# The map does not look at its values

`mapValues f` changes every value of a map by `f`. The functions of `simple_map.c` compare keys only,
so each of them does the same before and after: `get_mapValues`, `set_mapValues` and
`removeKey_mapValues`. The invariant goes along (`Stores.mapValues`).
-/

namespace RedisImpl

variable {κ ν μ : Type}

def KeyValuePair.mapValue (f : ν → μ) (kvp : KeyValuePair κ ν) : KeyValuePair κ μ :=
  ⟨kvp.key, f kvp.value⟩

namespace SimpleMap

def mapValues (f : ν → μ) (sm : SimpleMap κ ν) : SimpleMap κ μ where
  keys := sm.keys
  values := sm.values.map (List.map (Option.map f))
  capacity := sm.capacity
  top := sm.top

variable (f : ν → μ) (sm : SimpleMap κ ν) (cmp : κ → κ → Bool)

@[simp] theorem keys_mapValues : (sm.mapValues f).keys = sm.keys := rfl

@[simp] theorem values_mapValues :
    (sm.mapValues f).values = sm.values.map (List.map (Option.map f)) := rfl

@[simp] theorem capacity_mapValues : (sm.mapValues f).capacity = sm.capacity := rfl

@[simp] theorem top_mapValues : (sm.mapValues f).top = sm.top := rfl

@[simp] theorem isFull_mapValues : (sm.mapValues f).isFull = sm.isFull := rfl

theorem slot_map (xs : List (Option ν)) (i : Nat) :
    slot (xs.map (Option.map f)) i = (slot xs i).map f := by
  rw [slot, slot, List.getElem?_map]
  cases xs[i]? with
  | none => rfl
  | some x => rfl

theorem find_mapValues (key : κ) : (sm.mapValues f).find key cmp = sm.find key cmp := rfl

theorem get_mapValues (key : κ) :
    (sm.mapValues f).get key cmp = (sm.get key cmp).map (KeyValuePair.mapValue f) := by
  obtain ⟨ks, vs, capacity, top⟩ := sm
  unfold get
  rw [find_mapValues]
  cases find ⟨ks, vs, capacity, top⟩ key cmp with
  | pos i =>
    cases ks with
    | none => rfl
    | some ks =>
      cases vs with
      | none => rfl
      | some vs =>
        simp only [mapValues, Option.map_some, slot_map]
        cases slot ks i with
        | none => rfl
        | some k =>
          cases slot vs i with
          | none => rfl
          | some v => rfl
  | findKeyError => rfl
  | keyArrError => rfl
  | keyNotFound => rfl

theorem resize_map (xs : List (Option ν)) (n : Nat) :
    resize (xs.map (Option.map f)) n = (resize xs n).map (Option.map f) := by
  rw [resize, resize, List.map_append, List.map_take, List.map_replicate, List.length_map]
  rfl

theorem doubleArrays_mapValues (ra : Realloc) :
    doubleArrays ra (sm.mapValues f) =
      ((doubleArrays ra sm).1, (doubleArrays ra sm).2.mapValues f) := by
  rw [doubleArrays, doubleArrays]
  cases hks : sm.keys with
  | none => simp only [keys_mapValues, hks]
  | some ks =>
    cases hvs : sm.values with
    | none => simp only [keys_mapValues, values_mapValues, hks, hvs, Option.map_none]
    | some vs =>
      simp only [keys_mapValues, values_mapValues, capacity_mapValues, isFull_mapValues, hks, hvs,
        Option.map_some]
      by_cases hfull : (decide (sm.capacity = 0) || !sm.isFull) = true
      · rw [if_pos hfull]
        exact if_pos hfull
      · rw [if_neg hfull]
        refine (if_neg hfull).trans ?_
        cases doubledCapacity sm.capacity with
        | none => rfl
        | some n =>
          cases ra.keys with
          | false => rfl
          | true =>
            cases ra.values with
            | false => simp [mapValues, hvs]
            | true => simp [mapValues, resize_map]

theorem push_mapValues (kvp : KeyValuePair κ ν) :
    (sm.mapValues f).push (kvp.mapValue f) = (sm.push kvp).mapValues f := by
  obtain ⟨ks, vs, capacity, top⟩ := sm
  cases vs with
  | none => rfl
  | some vs =>
    simp only [push, mapValues, KeyValuePair.mapValue, Option.map_some, List.map_set]

theorem setNew_mapValues (ra : Realloc) (kvp : KeyValuePair κ ν) :
    setNew ra (sm.mapValues f) (kvp.mapValue f) =
      ((setNew ra sm kvp).1, (setNew ra sm kvp).2.mapValues f) := by
  have hnone : (sm.mapValues f).values.isNone = sm.values.isNone := Option.isNone_map
  unfold setNew
  rw [hnone, isFull_mapValues, doubleArrays_mapValues]
  by_cases h : (sm.keys.isNone || sm.values.isNone || decide (sm.capacity = 0)) = true
  · rw [if_pos h]
    exact if_pos h
  · rw [if_neg h]
    refine (if_neg h).trans ?_
    cases hf : sm.isFull with
    | true =>
      obtain ⟨_ | _, sm'⟩ := doubleArrays ra sm
      · rfl
      · exact congrArg (Prod.mk true) (push_mapValues f sm' kvp)
    | false => exact congrArg (Prod.mk true) (push_mapValues f sm kvp)

theorem upgrade_mapValues (pos : Nat) (kvp : KeyValuePair κ ν) :
    upgrade (sm.mapValues f) pos (kvp.mapValue f) =
      (upgrade sm pos kvp).map fun r => (r.1.mapValues f, r.2.mapValue f) := by
  obtain ⟨ks, vs, capacity, top⟩ := sm
  cases ks with
  | none => rfl
  | some ks =>
    cases vs with
    | none => rfl
    | some vs =>
      simp only [upgrade, mapValues, Option.map_some, slot_map]
      split
      · rfl
      · cases slot ks pos with
        | none => rfl
        | some k =>
          cases slot vs pos with
          | none => rfl
          | some v =>
            simp only [Option.map_some, List.map_set, KeyValuePair.mapValue]

theorem set_mapValues (ra : Realloc) (kvp : KeyValuePair κ ν) :
    (sm.mapValues f).set ra (kvp.mapValue f) cmp =
      ((sm.set ra kvp cmp).1, (sm.set ra kvp cmp).2.1.mapValues f,
        (sm.set ra kvp cmp).2.2.mapValue f) := by
  have hkey : (kvp.mapValue f).key = kvp.key := rfl
  unfold set
  rw [hkey, find_mapValues, setNew_mapValues]
  cases sm.find kvp.key cmp with
  | pos i =>
    simp only [upgrade_mapValues]
    cases upgrade sm i kvp with
    | none => rfl
    | some r => rfl
  | findKeyError => rfl
  | keyArrError => rfl
  | keyNotFound =>
    obtain ⟨_ | _, sm'⟩ := setNew ra sm kvp
    · rfl
    · rfl

theorem shiftLeft_map (n i : Nat) (xs : List (Option ν)) :
    shiftLeft n i (xs.map (Option.map f)) = (shiftLeft n i xs).map (Option.map f) := by
  induction n generalizing i xs with
  | zero => rw [shiftLeft, shiftLeft, List.map_set, Option.map_none]
  | succ n ih => rw [shiftLeft, shiftLeft, slot_map, ← List.map_set, ih]

theorem removeFrom_mapValues (key : κ) (ks : List (Option κ)) (vs : List (Option ν)) (n i : Nat) :
    removeFrom cmp key (sm.mapValues f) ks (vs.map (Option.map f)) n i =
      ((removeFrom cmp key sm ks vs n i).1, (removeFrom cmp key sm ks vs n i).2.1.mapValues f,
        (removeFrom cmp key sm ks vs n i).2.2.map (KeyValuePair.mapValue f)) := by
  induction n generalizing i with
  | zero => rfl
  | succ n ih =>
    rw [removeFrom, removeFrom, slot_map]
    cases slot ks i with
    | none => rfl
    | some rmvKey =>
      simp only
      split
      · exact ih (i + 1)
      · cases slot vs i with
        | none => rfl
        | some v =>
          simp only [Option.map_some, shiftLeft_map]
          rfl

theorem removeKey_mapValues (key : κ) :
    (sm.mapValues f).removeKey key cmp =
      ((sm.removeKey key cmp).1, (sm.removeKey key cmp).2.1.mapValues f,
        (sm.removeKey key cmp).2.2.map (KeyValuePair.mapValue f)) := by
  obtain ⟨ks, vs, capacity, top⟩ := sm
  cases ks with
  | none => rfl
  | some ks =>
    cases vs with
    | none => rfl
    | some vs => exact removeFrom_mapValues f ⟨some ks, some vs, capacity, top⟩ cmp key ks vs _ 0

theorem Stores.mapValues {ι : Type} [DecidableEq ι] {id : κ → ι} {sm : SimpleMap κ ν}
    {es : List (κ × ν)} (h : Stores id sm es) :
    Stores id (sm.mapValues f) (es.map fun e => (e.1, f e.2)) where
  keys := by
    obtain ⟨kt, hk, hc⟩ := h.keys
    refine ⟨kt, ?_, ?_⟩
    · rw [keys_mapValues, hk, List.map_map]
      rfl
    · rw [capacity_mapValues, hc, List.length_map]
  values := by
    obtain ⟨vt, hv, hc⟩ := h.values
    refine ⟨vt.map (Option.map f), ?_, ?_⟩
    · rw [values_mapValues, hv, Option.map_some, List.map_append, List.map_map, List.map_map]
      rfl
    · rw [capacity_mapValues, hc, List.length_map, List.length_map]
  top := by rw [top_mapValues, h.top, List.length_map]
  capacity := h.capacity
  distinct := by
    have hd := h.distinct
    rw [Keyed.Distinct] at hd ⊢
    rw [List.map_map]
    exact hd

end SimpleMap
end RedisImpl
