import RedisImpl.Cmd.KeyValue
import Mathlib.Data.List.InsertIdx
import Mathlib.Logic.Function.Basic

/-!
# The store refines a finite map

`FiniteMap`: what `simple_map.c` is for, a finite map with the order in which its keys stand. A
`Call` is one of `set`, `get` and `remove_key`, and a `Result` is all that the caller gets back.

`Represents sm m`: the arrays of `sm` hold the finite map `m`. `run_represents`: every sequence of
calls gives the results that it gives on the finite map, and the map it ends with represents it.
-/

namespace RedisImpl

open SimpleMap

variable {κ ν ι : Type} [DecidableEq ι] (id : κ → ι)

/-- A call with its arguments. -/
inductive Call (κ ν : Type) where
  | set (kvp : KeyValuePair κ ν)
  | get (key : κ)
  | removeKey (key : κ)

/-- The return code, and the caller's pair after the call. -/
inductive Result (κ ν : Type) where
  | set (rtn : SetRtn) (kvp : KeyValuePair κ ν)
  | get (kvp : Option (KeyValuePair κ ν))
  | removeKey (rtn : RemoveItemState) (rmvPair : Option (KeyValuePair κ ν))

/-- A call on the arrays; allocations succeed. -/
def SimpleMap.call (cmp : κ → κ → Bool) (sm : SimpleMap κ ν) : Call κ ν → Result κ ν × SimpleMap κ ν
  | .set kvp =>
    let (rtn, sm', kvp') := sm.set .ok kvp cmp
    (.set rtn kvp', sm')
  | .get key => (.get (sm.get key cmp), sm)
  | .removeKey key =>
    let (rtn, sm', rmvPair) := sm.removeKey key cmp
    (.removeKey rtn rmvPair, sm')

/-- The results of a sequence of calls, and the map after them. -/
def SimpleMap.run (cmp : κ → κ → Bool) : List (Call κ ν) → SimpleMap κ ν →
    List (Result κ ν) × SimpleMap κ ν
  | [], sm => ([], sm)
  | c :: cs, sm =>
    let (r, sm) := sm.call cmp c
    let (rs, sm) := SimpleMap.run cmp cs sm
    (r :: rs, sm)

/-- A finite map from `ι`: the key and the value under each `ι`, and the order of those in use. -/
structure FiniteMap (κ ν ι : Type) where
  entry : ι → Option (κ × ν)
  order : List ι

namespace FiniteMap

variable {id} (m : FiniteMap κ ν ι)

/-- The map without entries. -/
def empty : FiniteMap κ ν ι := ⟨fun _ => none, []⟩

variable (id) in
/-- A call on the finite map. -/
def call : Call κ ν → Result κ ν × FiniteMap κ ν ι
  | .set kvp =>
    let entry := Function.update m.entry (id kvp.key) (some (kvp.key, kvp.value))
    match m.entry (id kvp.key) with
    | none => (.set .sucessSet kvp, ⟨entry, m.order ++ [id kvp.key]⟩)
    | some (k, v) => (.set .sucessUpgrade ⟨k, v⟩, ⟨entry, m.order⟩)
  | .get key => (.get ((m.entry (id key)).map fun e => ⟨e.1, e.2⟩), m)
  | .removeKey key =>
    match m.entry (id key) with
    | none => (.removeKey .removeKeyNotFound none, m)
    | some (k, v) => (.removeKey .removeSuccess (some ⟨k, v⟩),
        ⟨Function.update m.entry (id key) none, m.order.erase (id key)⟩)

variable (id) in
/-- The results of a sequence of calls, and the finite map after them. -/
def run : List (Call κ ν) → FiniteMap κ ν ι → List (Result κ ν) × FiniteMap κ ν ι
  | [], m => ([], m)
  | c :: cs, m =>
    let (r, m) := m.call id c
    let (rs, m) := run cs m
    (r :: rs, m)

variable (id) in
/-- The finite map that a list of entries is. -/
def ofEntries (es : List (κ × ν)) : FiniteMap κ ν ι :=
  ⟨Keyed.lookup (ident id) es, es.map (ident id)⟩

end FiniteMap

/-- The arrays of `sm` hold the finite map `m`: both have `capacity` slots, the slots `0..top` are
filled with the keys and values of `m` in its order, and no two of these keys are equal. -/
structure Represents (sm : SimpleMap κ ν) (m : FiniteMap κ ν ι) : Prop where
  arrays : ∃ ks vs, sm.keys = some ks ∧ sm.values = some vs ∧ (ks.length : Int) = sm.capacity ∧
    (vs.length : Int) = sm.capacity ∧ ∀ (i : Nat) (hi : i < m.order.length), ∃ k v,
      slot ks i = some k ∧ slot vs i = some v ∧ id k = m.order[i] ∧ m.entry (id k) = some (k, v)
  top : sm.top = m.order.length - 1
  top_lt : sm.top < sm.capacity
  nodup : m.order.Nodup
  domain : ∀ k, m.entry k ≠ none ↔ k ∈ m.order

variable {id} {sm : SimpleMap κ ν} {es : List (κ × ν)}

/-- What a map holds, it represents. -/
theorem SimpleMap.Stores.represents (h : Stores id sm es) :
    Represents id sm (FiniteMap.ofEntries id es) where
  arrays := by
    obtain ⟨kt, hk, hkc⟩ := h.keys
    obtain ⟨vt, hv, hvc⟩ := h.values
    refine ⟨_, _, hk, hv, ?_, ?_, fun i hi => ?_⟩
    · rw [List.length_append, List.length_map, hkc, Int.natCast_add]
    · rw [List.length_append, List.length_map, hvc, Int.natCast_add]
    · have hi' : i < es.length := by
        simpa [FiniteMap.ofEntries] using hi
      refine ⟨es[i].1, es[i].2, slot_append_left Prod.fst es kt hi',
        slot_append_left Prod.snd es vt hi', ?_, ?_⟩
      · simp [FiniteMap.ofEntries, ident]
      · exact Keyed.lookup_of_mem h.distinct (List.getElem_mem hi')
  top := by
    rw [h.top, FiniteMap.ofEntries, List.length_map]
  top_lt := by
    obtain ⟨kt, -, hkc⟩ := h.keys
    rw [h.top, hkc]
    omega
  nodup := h.distinct
  domain k := by
    show Keyed.lookup (ident id) es k ≠ none ↔ k ∈ es.map (ident id)
    rw [ne_eq, Keyed.lookup_eq_none, List.mem_map]
    simp only [not_forall, not_not, exists_prop]

/-! ## One call -/

section Entries

/-- Putting an entry for a key that is there keeps the order. -/
theorem map_put_present (e : κ × ν) {a : κ × ν} (hd : Keyed.Distinct (ident id) es)
    (hl : Keyed.lookup (ident id) es (ident id e) = some a) :
    (Keyed.put (ident id) es e).map (ident id) = es.map (ident id) := by
  obtain ⟨i, hp, hi⟩ := Keyed.pos_of_lookup hd hl
  rw [Keyed.put, hp]
  exact Keyed.map_set_same hi (Keyed.id_of_lookup hl).symm

/-- Removing an entry takes its key out of the order. -/
theorem map_remove {k : ι} {a : κ × ν} (hd : Keyed.Distinct (ident id) es)
    (hl : Keyed.lookup (ident id) es k = some a) :
    (Keyed.remove (ident id) es k).map (ident id) = (es.map (ident id)).erase k := by
  obtain ⟨i, hp, hi⟩ := Keyed.pos_of_lookup hd hl
  have hlt : i < (es.map (ident id)).length := by
    rw [List.length_map]
    exact (List.getElem?_eq_some_iff.mp hi).1
  have hk : (es.map (ident id))[i] = k := by
    obtain ⟨hi', rfl⟩ := List.getElem?_eq_some_iff.mp hi
    rw [List.getElem_map]
    exact Keyed.id_of_lookup hl
  have herase := hd.erase_getElem i hlt
  rw [hk] at herase
  rw [Keyed.remove, hp, herase, List.eraseIdx_map]

theorem ofEntries_put (hd : Keyed.Distinct (ident id) es) (e : κ × ν) :
    (FiniteMap.ofEntries id (Keyed.put (ident id) es e)).entry =
      Function.update (FiniteMap.ofEntries id es).entry (ident id e) (some e) := by
  funext k
  show Keyed.lookup (ident id) (Keyed.put (ident id) es e) k = _
  rw [Keyed.lookup_put hd, Function.update_apply]
  rfl

theorem ofEntries_remove (hd : Keyed.Distinct (ident id) es) (k' : ι) :
    (FiniteMap.ofEntries id (Keyed.remove (ident id) es k')).entry =
      Function.update (FiniteMap.ofEntries id es).entry k' none := by
  funext k
  show Keyed.lookup (ident id) (Keyed.remove (ident id) es k') k = _
  rw [Keyed.lookup_remove hd, Function.update_apply]
  rfl

end Entries

/-- One call: the result is that on the finite map, and the map holds it afterwards. -/
theorem SimpleMap.Stores.call (h : Stores id sm es) (hs : es.length < 2 ^ 30) (c : Call κ ν) :
    ∃ r sm' es', sm.call (cmpBy id) c = (r, sm') ∧ Stores id sm' es' ∧
      (FiniteMap.ofEntries id es).call id c = (r, FiniteMap.ofEntries id es') := by
  cases c with
  | set kvp =>
    obtain ⟨sm', hst, hrun⟩ := h.set_eq hs kvp
    have hput := ofEntries_put h.distinct (kvp.key, kvp.value)
    cases hl : Keyed.lookup (ident id) es (id kvp.key) with
    | none =>
      rw [hl] at hrun
      refine ⟨.set .sucessSet kvp, sm', _, ?_, hst, ?_⟩
      · simp only [SimpleMap.call, hrun]
      · -- a new key comes last
        have hl' : (FiniteMap.ofEntries id es).entry (id kvp.key) = none := hl
        have hnew : Keyed.put (ident id) es (kvp.key, kvp.value) = es ++ [(kvp.key, kvp.value)] :=
          Keyed.put_absent hl
        simp only [FiniteMap.call, hl', ← hput]
        rw [hnew]
        simp only [FiniteMap.ofEntries, List.map_append, List.map_cons, List.map_nil]
    | some e =>
      rw [hl] at hrun
      refine ⟨.set .sucessUpgrade ⟨e.1, e.2⟩, sm', _, ?_, hst, ?_⟩
      · simp only [SimpleMap.call, hrun]
      · -- a present key keeps its place, and the pair that it had comes back
        have hl' : (FiniteMap.ofEntries id es).entry (id kvp.key) = some (e.1, e.2) := hl
        have hord := map_put_present (kvp.key, kvp.value) h.distinct hl
        simp only [FiniteMap.call, hl', ← hput]
        simp only [FiniteMap.ofEntries, hord]
  | get key =>
    refine ⟨_, sm, es, rfl, h, ?_⟩
    rw [h.get_eq key]
    rfl
  | removeKey key =>
    obtain ⟨sm', hst, -, hrun⟩ := h.removeKey_eq key
    have hrem := ofEntries_remove h.distinct (id key)
    cases hl : Keyed.lookup (ident id) es (id key) with
    | none =>
      rw [hl] at hrun
      rw [Keyed.remove_absent hl] at hst
      refine ⟨.removeKey .removeKeyNotFound none, sm', es, ?_, hst, ?_⟩
      · simp only [SimpleMap.call, hrun]
      · have hl' : (FiniteMap.ofEntries id es).entry (id key) = none := hl
        simp only [FiniteMap.call, hl']
    | some e =>
      rw [hl] at hrun
      refine ⟨.removeKey .removeSuccess (some ⟨e.1, e.2⟩), sm', _, ?_, hst, ?_⟩
      · simp only [SimpleMap.call, hrun]
      · have hl' : (FiniteMap.ofEntries id es).entry (id key) = some (e.1, e.2) := hl
        have hord := map_remove h.distinct hl
        simp only [FiniteMap.call, hl', ← hrem]
        simp only [FiniteMap.ofEntries, hord]

/-! ## Sequences of calls -/

/-- A sequence of calls in which the finite map never has `2^30` keys. -/
theorem SimpleMap.Stores.run {cs : List (Call κ ν)} (h : Stores id sm es)
    (hfew : ∀ n, ((FiniteMap.run id (cs.take n) (FiniteMap.ofEntries id es)).2).order.length < 2 ^ 30) :
    ∃ rs sm' es', SimpleMap.run (cmpBy id) cs sm = (rs, sm') ∧ Stores id sm' es' ∧
      FiniteMap.run id cs (FiniteMap.ofEntries id es) = (rs, FiniteMap.ofEntries id es') := by
  induction cs generalizing sm es with
  | nil => exact ⟨[], sm, es, rfl, h, rfl⟩
  | cons c cs ih =>
    have h0 : es.length < 2 ^ 30 := by
      have := hfew 0
      simpa only [List.take_zero, FiniteMap.run, FiniteMap.ofEntries, List.length_map] using this
    obtain ⟨r, sm₁, es₁, hcall, hst, habs⟩ := h.call h0 c
    have hfew' : ∀ n,
        ((FiniteMap.run id (cs.take n) (FiniteMap.ofEntries id es₁)).2).order.length < 2 ^ 30 := by
      intro n
      have := hfew (n + 1)
      simpa only [List.take_succ_cons, FiniteMap.run, habs] using this
    obtain ⟨rs, sm', es', hrun, hst', habs'⟩ := ih hst hfew'
    refine ⟨r :: rs, sm', es', ?_, hst', ?_⟩
    · simp only [SimpleMap.run, hcall, hrun]
    · simp only [FiniteMap.run, habs, habs']

/-- The store refines a finite map keyed by byte strings: from `create_simple_map`, every sequence
of calls gives the results that it gives on the finite map, and the arrays hold this map. -/
theorem run_represents (cs : List (Call KeyNode ν))
    (hfew : ∀ n, (FiniteMap.run KeyNode.id (cs.take n) .empty).2.order.length < 2 ^ 30) :
    (SimpleMap.run compare cs .create).1 = (FiniteMap.run KeyNode.id cs .empty).1 ∧
      Represents KeyNode.id (SimpleMap.run compare cs .create).2
        (FiniteMap.run KeyNode.id cs .empty).2 := by
  have hempty : (FiniteMap.empty : FiniteMap KeyNode ν Bytes) = FiniteMap.ofEntries KeyNode.id [] :=
    rfl
  rw [hempty] at hfew ⊢
  obtain ⟨rs, sm', es', hrun, hst, habs⟩ := stores_create.run hfew
  rw [compare_eq_cmpBy, hrun, habs]
  exact ⟨rfl, hst.represents⟩

/-- A key `k` that was stored at the start of the clock, without expiry. -/
def plainKey (k : Bytes) : KeyNode := ⟨k, ⟨0, 0⟩, 0, 0⟩

/-- Two keys, the first one overwritten and removed. -/
def setSetRemove : List (Call KeyNode Nat) :=
  [.set ⟨plainKey (ascii "a"), 1⟩, .set ⟨plainKey (ascii "b"), 2⟩, .set ⟨plainKey (ascii "a"), 3⟩,
    .removeKey (plainKey (ascii "a")), .get (plainKey (ascii "b"))]

theorem setSetRemove_represents :
    (SimpleMap.run compare setSetRemove .create).1 =
        (FiniteMap.run KeyNode.id setSetRemove .empty).1 ∧
      Represents KeyNode.id (SimpleMap.run compare setSetRemove .create).2
        (FiniteMap.run KeyNode.id setSetRemove .empty).2 := by
  refine run_represents setSetRemove fun n => ?_
  match n with
  | 0 | 1 | 2 | 3 | 4 => decide
  | n + 5 =>
    have hlen : setSetRemove.length ≤ n + 5 := Nat.le_add_left 5 n
    rw [List.take_of_length_le hlen]
    decide

end RedisImpl
