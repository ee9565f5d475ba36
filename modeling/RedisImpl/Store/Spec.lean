import RedisImpl.Lib.Keyed
import RedisImpl.Store.SimpleMap
import Mathlib.Tactic.Common

/-!
# The entries of a `SimpleMap`

`Stores id sm es`: the map `sm` holds the entries `es` (key and value) in this order: the slots
`0..top` of both arrays are filled with them, both arrays have `capacity` slots, and no two entries
have one key. The key of an entry is read through `id : κ → ι`, and the comparison the callers
pass is equality of these (`cmp a b ↔ id a = id b`).

Each operation on the map is one on the list of entries, under `Stores`:

* `Stores.get_eq`: `get` is `Keyed.lookup`;
* `Stores.set_eq`: `set` is `Keyed.put`, and its return code says which of the two cases it was;
* `Stores.removeKey_eq`: `remove_key` is `Keyed.remove`.
-/

namespace RedisImpl
namespace SimpleMap

variable {κ ν ι : Type} [DecidableEq ι] (id : κ → ι)

/-- The comparison of two keys by `id`. -/
def cmpBy (a b : κ) : Bool := id a = id b

/-- The key of an entry. -/
abbrev ident (e : κ × ν) : ι := id e.1

/-- `sm` holds the entries `es` (module doc). The rest of each array, `kt` and `vt`, is free. -/
structure Stores (sm : SimpleMap κ ν) (es : List (κ × ν)) : Prop where
  keys : ∃ kt, sm.keys = some (es.map (fun e => some e.1) ++ kt) ∧
    sm.capacity = es.length + kt.length
  values : ∃ vt, sm.values = some (es.map (fun e => some e.2) ++ vt) ∧
    sm.capacity = es.length + vt.length
  top : sm.top = es.length - 1
  capacity : 0 < sm.capacity
  distinct : Keyed.Distinct (ident id) es

variable {id} {sm : SimpleMap κ ν} {es : List (κ × ν)}

omit [DecidableEq ι] in
theorem stores_create : Stores id (create : SimpleMap κ ν) [] where
  keys := ⟨[none], rfl, rfl⟩
  values := ⟨[none], rfl, rfl⟩
  top := rfl
  capacity := Int.one_pos
  distinct := by simp [Keyed.Distinct]

/-! ## Slots -/

@[simp] theorem slot_append_left {α β : Type} (f : β → α) (xs : List β) (t : List (Option α))
    {i : Nat} (hi : i < xs.length) : slot (xs.map (fun x => some (f x)) ++ t) i = some (f xs[i]) := by
  simp [slot, List.getElem?_append_left, hi]

theorem slot_append_getElem? {α β : Type} (f : β → α) {xs : List β} (t : List (Option α)) {i : Nat}
    {x : β} (hi : xs[i]? = some x) : slot (xs.map (fun x => some (f x)) ++ t) i = some (f x) := by
  obtain ⟨hlt, rfl⟩ := List.getElem?_eq_some_iff.mp hi
  exact slot_append_left f xs t hlt

/-- The first `n` slots after the entries `pre` are the entries `suf`. -/
theorem slot_middle {α β : Type} (f : β → α) (pre suf : List β) (x : β) (t : List (Option α)) :
    slot ((pre ++ x :: suf).map (fun x => some (f x)) ++ t) pre.length = some (f x) :=
  slot_append_getElem? f t (by simp)

/-! ## `__find` and `get` -/

variable (id) in
/-- The search from the entries `suf` on, after the entries `pre` that do not match. -/
theorem findFrom_eq (key : κ) (kt : List (Option κ)) (pre suf : List (κ × ν)) :
    findFrom (cmpBy id) key ((pre ++ suf).map (fun e => some e.1) ++ kt) suf.length pre.length =
      match Keyed.pos (ident id) suf (id key) with
      | none => .keyNotFound
      | some i => .pos (pre.length + i) := by
  induction suf generalizing pre with
  | nil => rfl
  | cons e suf ih =>
    have hs : slot ((pre ++ e :: suf).map (fun e => some e.1) ++ kt) pre.length = some e.1 :=
      slot_middle Prod.fst pre suf e kt
    rw [List.length_cons, findFrom, hs, Keyed.pos, List.findIdx?_cons]
    by_cases he : id e.1 = id key
    · simp [cmpBy, he]
    · have := ih (pre ++ [e])
      simp only [List.append_assoc, List.singleton_append, List.length_append, List.length_cons,
        List.length_nil, Nat.zero_add] at this
      simp only [cmpBy, ident, he, decide_false, Bool.false_eq_true, if_false]
      rw [this, Keyed.pos]
      cases suf.findIdx? fun e => ident id e = id key with
      | none => rfl
      | some i => simp [Nat.add_assoc, Nat.add_comm 1 i]

omit [DecidableEq ι] in
theorem Stores.top_succ (h : Stores id sm es) : (sm.top + 1).toNat = es.length := by
  rw [h.top]
  omega

theorem Stores.find_eq (h : Stores id sm es) (key : κ) :
    sm.find key (cmpBy id) =
      match Keyed.pos (ident id) es (id key) with
      | none => .keyNotFound
      | some i => .pos i := by
  obtain ⟨kt, hk, -⟩ := h.keys
  have := findFrom_eq id key kt [] es
  simp only [List.nil_append, List.length_nil, Nat.zero_add] at this
  simp only [find, hk, h.top_succ, this]

theorem Stores.find_absent (h : Stores id sm es) {key : κ}
    (ha : Keyed.lookup (ident id) es (id key) = none) : sm.find key (cmpBy id) = .keyNotFound := by
  rw [h.find_eq, Keyed.pos_eq_none.mpr ha]

/-- `get` finds the entry with the key. -/
theorem Stores.get_eq (h : Stores id sm es) (key : κ) :
    sm.get key (cmpBy id) =
      (Keyed.lookup (ident id) es (id key)).map fun e => ⟨e.1, e.2⟩ := by
  cases hl : Keyed.lookup (ident id) es (id key) with
  | none => simp [get, h.find_absent hl]
  | some e =>
    obtain ⟨i, hp, hi⟩ := Keyed.pos_of_lookup h.distinct hl
    obtain ⟨kt, hk, -⟩ := h.keys
    obtain ⟨vt, hv, -⟩ := h.values
    simp [get, h.find_eq, hp, hk, hv, slot_append_getElem? Prod.fst kt hi, slot_append_getElem? Prod.snd vt hi]

/-! ## `set` -/

/-- A capacity from `2^30` on cannot double: the product is not an `int`. -/
theorem doubledCapacity_none {c : Int} (h0 : 2 ^ 30 ≤ c) (h1 : c < 2 ^ 31) :
    doubledCapacity c = none := by
  have hb : (2 * c).bmod (2 ^ 32) = 2 * c - 2 ^ 32 := by
    rw [← Int.sub_bmod_right]
    exact Int.bmod_eq_of_le (by omega) (by omega)
  unfold doubledCapacity
  simp only [BitVec.toInt_ofInt, hb]
  rw [if_pos (by omega)]

theorem doubledCapacity_eq {c : Int} (h0 : 0 ≤ c) (h1 : c < 2 ^ 30) :
    doubledCapacity c = some (2 * c).toNat := by
  have hb : (2 * c).bmod (2 ^ 32) = 2 * c := Int.bmod_eq_of_le (by omega) (by omega)
  unfold doubledCapacity
  simp only [BitVec.toInt_ofInt, hb]
  rw [if_neg (by omega)]

/-- A free slot in both arrays: the map holds the entry after `push`. -/
theorem Stores.push (h : Stores id sm es) (hfull : sm.isFull = false) (kvp : KeyValuePair κ ν)
    (ha : Keyed.lookup (ident id) es (id kvp.key) = none) :
    Stores id (sm.push kvp) (es ++ [(kvp.key, kvp.value)]) := by
  obtain ⟨kt, hk, hkc⟩ := h.keys
  obtain ⟨vt, hv, hvc⟩ := h.values
  have htop := h.top
  have hne : sm.top + 1 ≠ sm.capacity := by simpa [isFull] using hfull
  obtain ⟨k, kt', rfl⟩ : ∃ k kt', kt = k :: kt' := by
    cases kt with
    | nil => simp at hkc; omega
    | cons k kt' => exact ⟨k, kt', rfl⟩
  obtain ⟨v, vt', rfl⟩ : ∃ v vt', vt = v :: vt' := by
    cases vt with
    | nil => simp at hvc; omega
    | cons v vt' => exact ⟨v, vt', rfl⟩
  have ht : (sm.top + 1).toNat = es.length := h.top_succ
  refine ⟨⟨kt', ?_, ?_⟩, ⟨vt', ?_, ?_⟩, ?_, h.capacity, ?_⟩
  · simp [SimpleMap.push, hk, ht]
  · simp only [SimpleMap.push, List.length_append, List.length_cons, List.length_nil] at hkc ⊢
    omega
  · simp [SimpleMap.push, hv, ht]
  · simp only [SimpleMap.push, List.length_append, List.length_cons, List.length_nil] at hvc ⊢
    omega
  · simp only [SimpleMap.push, List.length_append, List.length_cons, List.length_nil]
    omega
  · exact h.distinct.append ha

theorem resize_append {α : Type} (xs t : List (Option α)) {n : Nat}
    (h : xs.length + t.length ≤ n) :
    ∃ t', resize (xs ++ t) n = xs ++ t' ∧ xs.length + t'.length = n := by
  refine ⟨t ++ List.replicate (n - (xs.length + t.length)) none, ?_, ?_⟩
  · simp [resize, List.take_of_length_le, h]
  · simp only [List.length_append, List.length_replicate]
    omega

omit [DecidableEq ι] in
/-- A full map whose capacity can double: both arrays are doubled, the entries stay. -/
theorem Stores.doubleArrays (h : Stores id sm es) (hfull : sm.isFull = true)
    (hs : es.length < 2 ^ 30) :
    ∃ sm', sm.doubleArrays .ok = (true, sm') ∧ Stores id sm' es ∧ sm'.isFull = false ∧
      sm'.capacity < 2 ^ 31 := by
  obtain ⟨kt, hk, hkc⟩ := h.keys
  obtain ⟨vt, hv, hvc⟩ := h.values
  have htop := h.top
  have hpos := h.capacity
  have hcap : sm.top + 1 = sm.capacity := by simpa [isFull] using hfull
  have hd := doubledCapacity_eq (c := sm.capacity) (by omega) (by omega)
  have h0 : sm.capacity ≠ 0 := by omega
  obtain ⟨kt', hk', hkl⟩ := resize_append (es.map fun e => some e.1) kt
    (n := (2 * sm.capacity).toNat) (by simp; omega)
  obtain ⟨vt', hv', hvl⟩ := resize_append (es.map fun e => some e.2) vt
    (n := (2 * sm.capacity).toNat) (by simp; omega)
  refine ⟨⟨some (resize (es.map (fun e => some e.1) ++ kt) (2 * sm.capacity).toNat),
    some (resize (es.map (fun e => some e.2) ++ vt) (2 * sm.capacity).toNat),
    (2 * sm.capacity).toNat, sm.top⟩, ?_, ?_, ?_, ?_⟩
  · simp [SimpleMap.doubleArrays, hk, hv, h0, hfull, hd, Realloc.ok]
  · refine ⟨⟨kt', by simp [hk'], ?_⟩, ⟨vt', by simp [hv'], ?_⟩, htop, ?_, h.distinct⟩
    · simp only [List.length_map] at hkl
      simp only
      omega
    · simp only [List.length_map] at hvl
      simp only
      omega
    · simp only
      omega
  · simp only [isFull, decide_eq_false_iff_not]
    omega
  · simp only
    omega

/-- `__set` of an absent key. -/
theorem Stores.setNew (h : Stores id sm es) (hs : sm.isFull = true → es.length < 2 ^ 30)
    (kvp : KeyValuePair κ ν) (ha : Keyed.lookup (ident id) es (id kvp.key) = none) :
    ∃ sm', sm.setNew .ok kvp = (true, sm') ∧ Stores id sm' (es ++ [(kvp.key, kvp.value)]) ∧
      (sm.capacity < 2 ^ 31 → sm'.capacity < 2 ^ 31) := by
  obtain ⟨kt, hk, -⟩ := h.keys
  obtain ⟨vt, hv, -⟩ := h.values
  have h0 : sm.capacity ≠ 0 := Int.ne_of_gt h.capacity
  by_cases hfull : sm.isFull = true
  · obtain ⟨sm', hd, hst, hf, hc⟩ := h.doubleArrays hfull (hs hfull)
    exact ⟨sm'.push kvp, by simp [SimpleMap.setNew, hk, hv, h0, hfull, hd], hst.push hf kvp ha,
      fun _ => hc⟩
  · rw [Bool.not_eq_true] at hfull
    exact ⟨sm.push kvp, by simp [SimpleMap.setNew, hk, hv, h0, hfull], h.push hfull kvp ha,
      fun hc => hc⟩

/-- `set` of an absent key appends the entry. -/
theorem Stores.set_new (h : Stores id sm es) (hs : sm.isFull = true → es.length < 2 ^ 30)
    (kvp : KeyValuePair κ ν) (ha : Keyed.lookup (ident id) es (id kvp.key) = none) :
    ∃ sm', sm.set .ok kvp (cmpBy id) = (.sucessSet, sm', kvp) ∧
      Stores id sm' (es ++ [(kvp.key, kvp.value)]) ∧
      (sm.capacity < 2 ^ 31 → sm'.capacity < 2 ^ 31) := by
  obtain ⟨sm', hn, hst, hc⟩ := h.setNew hs kvp ha
  exact ⟨sm', by simp [SimpleMap.set, h.find_absent ha, hn], hst, hc⟩

/-- The capacity after `set` of an absent key. -/
theorem Stores.capacity_set (h : Stores id sm es) (hs : sm.isFull = true → es.length < 2 ^ 30)
    (kvp : KeyValuePair κ ν) (ha : Keyed.lookup (ident id) es (id kvp.key) = none) :
    (sm.set .ok kvp (cmpBy id)).2.1.capacity =
      if sm.isFull = true then 2 * sm.capacity else sm.capacity := by
  obtain ⟨kt, hk, hkc⟩ := h.keys
  obtain ⟨vt, hv, -⟩ := h.values
  have hpos := h.capacity
  have h0 : sm.capacity ≠ 0 := Int.ne_of_gt h.capacity
  by_cases hfull : sm.isFull = true
  · have hlen := hs hfull
    have htop := h.top
    have hcap : sm.top + 1 = sm.capacity := by simpa [isFull] using hfull
    have hd := doubledCapacity_eq (c := sm.capacity) (by omega) (by omega)
    have h2 : (((2 * sm.capacity).toNat : Nat) : Int) = 2 * sm.capacity := by omega
    simp [SimpleMap.set, h.find_absent ha, SimpleMap.setNew, SimpleMap.doubleArrays, hk, hv, h0,
      hfull, hd, Realloc.ok, SimpleMap.push, h2]
  · rw [if_neg hfull]
    rw [Bool.not_eq_true] at hfull
    simp [SimpleMap.set, h.find_absent ha, SimpleMap.setNew, hk, hv, h0, hfull, SimpleMap.push]

/-- `set` of an absent key fails when the map is full and its capacity cannot double. -/
theorem Stores.set_full (h : Stores id sm es) (hfull : sm.isFull = true)
    (hs : ¬ es.length < 2 ^ 30) (hc : sm.capacity < 2 ^ 31) (kvp : KeyValuePair κ ν)
    (ha : Keyed.lookup (ident id) es (id kvp.key) = none) :
    sm.set .ok kvp (cmpBy id) = (.errorSetSmRtn, sm, kvp) := by
  obtain ⟨kt, hk, -⟩ := h.keys
  obtain ⟨vt, hv, -⟩ := h.values
  have htop := h.top
  have hcap : sm.top + 1 = sm.capacity := by simpa [isFull] using hfull
  have h0 : sm.capacity ≠ 0 := by omega
  have hd := doubledCapacity_none (c := sm.capacity) (by omega) hc
  simp [SimpleMap.set, h.find_absent ha, SimpleMap.setNew, SimpleMap.doubleArrays, hk, hv, h0,
    hfull, hd]

/-- `set` of a present key replaces its entry and hands the displaced pair back. No allocation is
made, so the outcome of `realloc` does not matter. -/
theorem Stores.set_upgrade (h : Stores id sm es) (ra : Realloc) (kvp : KeyValuePair κ ν)
    {e : κ × ν} (hl : Keyed.lookup (ident id) es (id kvp.key) = some e) :
    ∃ sm', sm.set ra kvp (cmpBy id) = (.sucessUpgrade, sm', ⟨e.1, e.2⟩) ∧
      Stores id sm' (Keyed.put (ident id) es (kvp.key, kvp.value)) ∧
      sm'.capacity = sm.capacity := by
  obtain ⟨i, hp, hi⟩ := Keyed.pos_of_lookup h.distinct hl
  obtain ⟨kt, hk, hkc⟩ := h.keys
  obtain ⟨vt, hv, hvc⟩ := h.values
  have hlt : i < es.length := (List.getElem?_eq_some_iff.mp hi).1
  have htop : ¬ ((i : Int) > sm.top) := by rw [h.top]; omega
  have hput : Keyed.put (ident id) es (kvp.key, kvp.value) = es.set i (kvp.key, kvp.value) := by
    rw [Keyed.put, hp]
  refine ⟨{ sm with
      keys := some ((es.map (fun e => some e.1) ++ kt).set i (some kvp.key)),
      values := some ((es.map (fun e => some e.2) ++ vt).set i (some kvp.value)) }, ?_, ?_, rfl⟩
  · simp only [SimpleMap.set, h.find_eq, hp, upgrade, hk, hv, htop, if_false,
      slot_append_getElem? Prod.fst kt hi, slot_append_getElem? Prod.snd vt hi]
  · rw [hput]
    refine ⟨⟨kt, ?_, by simpa using hkc⟩, ⟨vt, ?_, by simpa using hvc⟩, by simpa using h.top,
      h.capacity, h.distinct.set hi (Keyed.id_of_lookup hl).symm⟩
    · simp [hlt, List.map_set]
    · simp [hlt, List.map_set]

/-- `set` in a map whose capacity is an `int`: it is `Keyed.put`, or the map is full, its capacity
cannot double, and `set` of a new key fails. -/
theorem Stores.set_cases (h : Stores id sm es) (hc : sm.capacity < 2 ^ 31)
    (kvp : KeyValuePair κ ν) :
    (∃ sm', Stores id sm' (Keyed.put (ident id) es (kvp.key, kvp.value)) ∧
      sm'.capacity < 2 ^ 31 ∧
      sm.set .ok kvp (cmpBy id) =
        match Keyed.lookup (ident id) es (id kvp.key) with
        | none => (.sucessSet, sm', kvp)
        | some e => (.sucessUpgrade, sm', ⟨e.1, e.2⟩)) ∨
    (sm.isFull = true ∧ ¬ es.length < 2 ^ 30) ∧
      Keyed.lookup (ident id) es (id kvp.key) = none ∧
      sm.set .ok kvp (cmpBy id) = (.errorSetSmRtn, sm, kvp) := by
  cases hl : Keyed.lookup (ident id) es (id kvp.key) with
  | none =>
    by_cases hs : sm.isFull = true → es.length < 2 ^ 30
    · left
      obtain ⟨sm', hset, hst, hc'⟩ := h.set_new hs kvp hl
      have ha : Keyed.lookup (ident id) es (ident id (kvp.key, kvp.value)) = none := hl
      rw [Keyed.put_absent ha]
      exact ⟨sm', hst, hc' hc, hset⟩
    · right
      obtain ⟨hfull, hs⟩ := Classical.not_imp.mp hs
      exact ⟨⟨hfull, hs⟩, rfl, h.set_full hfull hs hc kvp hl⟩
  | some e =>
    left
    obtain ⟨sm', hset, hst, hc'⟩ := h.set_upgrade .ok kvp hl
    exact ⟨sm', hst, by omega, hset⟩

/-- `set` is `Keyed.put`. -/
theorem Stores.set_eq (h : Stores id sm es) (hs : es.length < 2 ^ 30) (kvp : KeyValuePair κ ν) :
    ∃ sm', Stores id sm' (Keyed.put (ident id) es (kvp.key, kvp.value)) ∧
      sm.set .ok kvp (cmpBy id) =
        match Keyed.lookup (ident id) es (id kvp.key) with
        | none => (.sucessSet, sm', kvp)
        | some e => (.sucessUpgrade, sm', ⟨e.1, e.2⟩) := by
  cases hl : Keyed.lookup (ident id) es (id kvp.key) with
  | none =>
    obtain ⟨sm', hset, hst, -⟩ := h.set_new (fun _ => hs) kvp hl
    have ha : Keyed.lookup (ident id) es (ident id (kvp.key, kvp.value)) = none := hl
    rw [Keyed.put_absent ha]
    exact ⟨sm', hst, hset⟩
  | some e =>
    obtain ⟨sm', hset, hst, -⟩ := h.set_upgrade .ok kvp hl
    exact ⟨sm', hst, hset⟩

/-! ## `remove_key` -/

/-- The shift over the slots after `x`: the slots `pre`, `x`, `suf` become `pre`, `suf` and a NULL
slot. -/
theorem shiftLeft_eq {α : Type} (pre suf t : List (Option α)) (x : Option α) :
    shiftLeft suf.length pre.length (pre ++ x :: suf ++ t) = pre ++ suf ++ none :: t := by
  induction suf generalizing pre x with
  | nil => simp [shiftLeft]
  | cons y suf ih =>
    have hs : slot (pre ++ x :: (y :: suf) ++ t) (pre.length + 1) = y := by
      simp [slot]
    have hset : (pre ++ x :: (y :: suf) ++ t).set pre.length y = (pre ++ [y]) ++ y :: suf ++ t := by
      simp
    have := ih (pre ++ [y]) y
    simp only [List.length_append, List.length_cons, List.length_nil, Nat.zero_add] at this
    rw [List.length_cons, shiftLeft, hs, hset, this]
    simp

variable (id) in
/-- The search of `remove_key` from the entries `suf` on, after the entries `pre` that do not
match, does not find the key. -/
theorem removeFrom_absent (sm : SimpleMap κ ν) (key : κ) (kt : List (Option κ)) (vs : List (Option ν))
    (pre suf : List (κ × ν)) (ha : ∀ e ∈ suf, ident id e ≠ id key) :
    removeFrom (cmpBy id) key sm ((pre ++ suf).map (fun e => some e.1) ++ kt) vs suf.length
      pre.length = (.removeKeyNotFound, sm, none) := by
  induction suf generalizing pre with
  | nil => rfl
  | cons e suf ih =>
    have hs : slot ((pre ++ e :: suf).map (fun e => some e.1) ++ kt) pre.length = some e.1 :=
      slot_middle Prod.fst pre suf e kt
    have hne : cmpBy id key e.1 = false := by
      simpa [cmpBy] using (ha e (by simp)).symm
    have := ih (pre ++ [e]) (fun x hx => ha x (by simp [hx]))
    simp only [List.append_assoc, List.singleton_append, List.length_append, List.length_cons,
      List.length_nil, Nat.zero_add] at this
    rw [List.length_cons, removeFrom, hs]
    simp only [hne, Bool.not_false, if_true]
    exact this

variable (id) in
/-- The search of `remove_key` stops at the first match, `e` between `mid` and `post`. -/
theorem removeFrom_found (sm : SimpleMap κ ν) (key : κ) (kt : List (Option κ)) (vt : List (Option ν))
    (pre mid post : List (κ × ν)) (e : κ × ν) (hmid : ∀ x ∈ mid, ident id x ≠ id key)
    (he : ident id e = id key) :
    removeFrom (cmpBy id) key sm ((pre ++ mid ++ e :: post).map (fun e => some e.1) ++ kt)
      ((pre ++ mid ++ e :: post).map (fun e => some e.2) ++ vt) (mid.length + 1 + post.length)
      pre.length =
    (.removeSuccess,
      { sm with
        keys := some ((pre ++ mid ++ post).map (fun e => some e.1) ++ none :: kt)
        values := some ((pre ++ mid ++ post).map (fun e => some e.2) ++ none :: vt)
        top := sm.top - 1 },
      some ⟨e.1, e.2⟩) := by
  -- on the entries before the match; at the match, both arrays are shifted
  induction mid generalizing pre with
  | nil =>
    have hk : slot ((pre ++ e :: post).map (fun e => some e.1) ++ kt) pre.length = some e.1 :=
      slot_middle Prod.fst pre post e kt
    have hv : slot ((pre ++ e :: post).map (fun e => some e.2) ++ vt) pre.length = some e.2 :=
      slot_middle Prod.snd pre post e vt
    have hks := shiftLeft_eq (pre.map fun e => some e.1) (post.map fun e => some e.1) kt
      (some e.1)
    have hvs := shiftLeft_eq (pre.map fun e => some e.2) (post.map fun e => some e.2) vt
      (some e.2)
    simp only [List.length_map] at hks hvs
    have hc : cmpBy id key e.1 = true := by simpa [cmpBy] using he.symm
    simp only [List.append_nil, List.length_nil, Nat.zero_add, Nat.add_comm 1 post.length,
      removeFrom, hk, hv, hc, Bool.not_true, Bool.false_eq_true, if_false]
    simp only [List.map_append, List.map_cons, hks, hvs]
  | cons x mid ih =>
    have hk : slot ((pre ++ x :: mid ++ e :: post).map (fun e => some e.1) ++ kt) pre.length =
        some x.1 := by
      rw [List.append_assoc, List.cons_append]
      exact slot_middle Prod.fst pre (mid ++ e :: post) x kt
    have hne : cmpBy id key x.1 = false := by simpa [cmpBy] using (hmid x (by simp)).symm
    have := ih (pre ++ [x]) (fun y hy => hmid y (by simp [hy]))
    simp only [List.append_assoc, List.cons_append, List.nil_append, List.length_append,
      List.length_cons, List.length_nil, Nat.zero_add] at this hk ⊢
    rw [show mid.length + 1 + 1 + post.length = (mid.length + 1 + post.length) + 1 by omega,
      removeFrom, hk]
    simp only [hne, Bool.not_false, if_true]
    exact this

theorem Stores.removeKey_absent (h : Stores id sm es) {key : κ}
    (ha : Keyed.lookup (ident id) es (id key) = none) :
    sm.removeKey key (cmpBy id) = (.removeKeyNotFound, sm, none) := by
  obtain ⟨kt, hk, -⟩ := h.keys
  obtain ⟨vt, hv, -⟩ := h.values
  have := removeFrom_absent id sm key kt (es.map (fun e => some e.2) ++ vt) [] es
    (Keyed.lookup_eq_none.mp ha)
  simp only [List.nil_append, List.length_nil] at this
  simp only [SimpleMap.removeKey, hk, hv, h.top_succ, this]

/-- `remove_key` of a present key removes its entry and hands the pair back. -/
theorem Stores.removeKey_found (h : Stores id sm es) {key : κ} {e : κ × ν}
    (hl : Keyed.lookup (ident id) es (id key) = some e) :
    ∃ sm', sm.removeKey key (cmpBy id) = (.removeSuccess, sm', some ⟨e.1, e.2⟩) ∧
      Stores id sm' (Keyed.remove (ident id) es (id key)) ∧ sm'.capacity = sm.capacity := by
  obtain ⟨i, hp, hi⟩ := Keyed.pos_of_lookup h.distinct hl
  obtain ⟨kt, hk, hkc⟩ := h.keys
  obtain ⟨vt, hv, hvc⟩ := h.values
  have hlt : i < es.length := (List.getElem?_eq_some_iff.mp hi).1
  have hid := Keyed.id_of_lookup hl
  have hrem : Keyed.remove (ident id) es (id key) = es.eraseIdx i := by rw [Keyed.remove, hp]
  have hsplit : es = es.take i ++ e :: es.drop (i + 1) := by
    have he : es[i] = e := by simpa [hlt] using hi
    rw [← he, ← List.drop_eq_getElem_cons, List.take_append_drop]
  have herase : es.eraseIdx i = es.take i ++ es.drop (i + 1) := List.eraseIdx_eq_take_drop_succ ..
  -- keys are distinct, so the first match is the entry
  have hmid : ∀ x ∈ es.take i, ident id x ≠ id key := by
    intro x hx hxk
    obtain ⟨j, hj⟩ := List.mem_iff_getElem?.mp hx
    have hj' : j < i := by
      have := (List.getElem?_eq_some_iff.mp hj).1
      simp at this
      omega
    rw [List.getElem?_take_of_lt hj'] at hj
    have := h.distinct.pos_unique hj hi (hxk.trans hid.symm)
    omega
  have hrun := removeFrom_found id sm key kt vt [] (es.take i) (es.drop (i + 1)) e
    hmid hid
  simp only [List.nil_append, List.length_nil, ← hsplit, ← herase] at hrun
  have hlen : (es.take i).length + 1 + (es.drop (i + 1)).length = es.length := by
    simp only [List.length_take, List.length_drop]
    omega
  have hel : (es.eraseIdx i).length = es.length - 1 := by simp [List.length_eraseIdx, hlt]
  rw [hlen] at hrun
  have hrm : sm.removeKey key (cmpBy id) =
      removeFrom (cmpBy id) key sm (es.map (fun e => some e.1) ++ kt)
        (es.map (fun e => some e.2) ++ vt) es.length 0 := by
    simp only [SimpleMap.removeKey, hk, hv, h.top_succ]
  refine ⟨_, hrm.trans hrun, ?_, rfl⟩
  rw [hrem]
  refine ⟨⟨none :: kt, rfl, ?_⟩, ⟨none :: vt, rfl, ?_⟩, ?_, h.capacity, h.distinct.eraseIdx i⟩
  · simp only [List.length_cons, hel]
    omega
  · simp only [List.length_cons, hel]
    omega
  · have := h.top
    simp only [hel]
    omega

/-- `remove_key` is `Keyed.remove`. -/
theorem Stores.removeKey_eq (h : Stores id sm es) (key : κ) :
    ∃ sm', Stores id sm' (Keyed.remove (ident id) es (id key)) ∧ sm'.capacity = sm.capacity ∧
      sm.removeKey key (cmpBy id) =
        match Keyed.lookup (ident id) es (id key) with
        | none => (.removeKeyNotFound, sm', none)
        | some e => (.removeSuccess, sm', some ⟨e.1, e.2⟩) := by
  cases hl : Keyed.lookup (ident id) es (id key) with
  | none =>
    rw [Keyed.remove_absent hl]
    exact ⟨sm, h, rfl, h.removeKey_absent hl⟩
  | some e =>
    obtain ⟨sm', hrun, hst, hc⟩ := h.removeKey_found hl
    exact ⟨sm', hst, hc, hrun⟩

end SimpleMap
end RedisImpl
