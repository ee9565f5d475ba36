import RedisImpl.Cmd.Execute
import RedisImpl.Lib.Heap
import RedisImpl.Store.MapValues

/-!
# The store with the nodes it points to

The slots of the map are pointers to nodes, and `get` hands these pointers out: a worker may still
hold one when another worker frees the nodes. `Shared` is the map together with the nodes. The two
nodes of a pair come into the map together, leave it together and are freed together
(`clean_up_kv`), so they are one block, and each value of the map carries its address. Addresses are
not used again, so reading a block after it was freed gives nothing.

* `Shared.get`, `Shared.set`, `Shared.removeKey`: the calls, with pointers. On what the map holds,
  `Shared.store`, they are those of `Store/SimpleMap.lean` (`store_set`, `store_removeKey`).
* `SharedInv`: the map is one, its pairs are in the nodes, and different keys have different blocks.
* `SharedInv.set`, `SharedInv.removeKey`: what each call does to the pairs. `SharedInv.free`: a block
  that no pair of the map is in may be freed.
-/

namespace RedisImpl

/-- A value node, and the address of its pair. -/
structure Located where
  node : ValueNode
  addr : Nat
  deriving DecidableEq

/-- The map and the nodes. -/
structure Shared where
  map : SimpleMap KeyNode Located
  nodes : Heap (KeyValuePair KeyNode ValueNode)

namespace Shared

/-- What the map holds. -/
def store (m : Shared) : Store := m.map.mapValues Located.node

/-- An empty map. -/
def create : Shared := ⟨.create, .empty⟩

/-- `get`: the pointers of the pair, or NULL. -/
def get (m : Shared) (key : KeyNode) : Ptr :=
  (m.map.get key compare).map fun kvp => kvp.value.addr

/-- `set` of two new nodes: the return code, and the pair that the caller has after it. -/
def set (m : Shared) (kvp : KeyValuePair KeyNode ValueNode) :
    SetRtn × Shared × KeyValuePair KeyNode Located :=
  match m.map.set .ok ⟨kvp.key, kvp.value, m.nodes.size⟩ compare with
  | (rtn, map, kvp') => (rtn, ⟨map, m.nodes.alloc kvp⟩, kvp')

/-- `remove_key`: the return code, and the nodes that the caller gets. -/
def removeKey (m : Shared) (key : KeyNode) : RemoveItemState × Shared × Ptr :=
  match m.map.removeKey key compare with
  | (state, map, rmvPair) => (state, { m with map }, rmvPair.map fun kvp => kvp.value.addr)

/-- `clean_up_kv` of the nodes at `a`. -/
def free (m : Shared) (a : Nat) : Shared := { m with nodes := m.nodes.free a }

@[simp] theorem map_free (m : Shared) (a : Nat) : (m.free a).map = m.map := rfl

@[simp] theorem store_free (m : Shared) (a : Nat) : (m.free a).store = m.store := rfl

theorem get_eq (m : Shared) (key : KeyNode) :
    m.get key = (entryAt m.map key.content).map fun kvp => kvp.value.addr := by
  rw [get, get_eq_entryAt]

theorem entryAt_store (m : Shared) (k : Bytes) :
    entryAt m.store k = (entryAt m.map k).map (KeyValuePair.mapValue Located.node) :=
  SimpleMap.get_mapValues ..

theorem store_set (m : Shared) (kvp : KeyValuePair KeyNode ValueNode) :
    m.store.set .ok kvp compare =
      ((m.set kvp).1, (m.set kvp).2.1.store, (m.set kvp).2.2.mapValue Located.node) :=
  SimpleMap.set_mapValues Located.node m.map compare .ok ⟨kvp.key, kvp.value, m.nodes.size⟩

theorem store_removeKey (m : Shared) (key : KeyNode) :
    m.store.removeKey key compare =
      ((m.removeKey key).1, (m.removeKey key).2.1.store,
        (m.map.removeKey key compare).2.2.map (KeyValuePair.mapValue Located.node)) :=
  SimpleMap.removeKey_mapValues ..

end Shared

/-! ## The map -/

/-- The invariant of the map: it holds some entries, and its capacity is an `int`. -/
def StoreInv {ν : Type} (sm : SimpleMap KeyNode ν) : Prop :=
  (∃ es, SimpleMap.Stores KeyNode.id sm es) ∧ sm.capacity < 2 ^ 31

section Store

variable {ν : Type} {sm : SimpleMap KeyNode ν}

theorem StoreInv.check {sm : Store} (h : StoreInv sm) : executeSetCheck sm = true := by
  obtain ⟨⟨es, hst⟩, -⟩ := h
  exact executeSetCheck_stores hst

theorem StoreInv.mapValues {μ : Type} (h : StoreInv sm) (f : ν → μ) :
    StoreInv (sm.mapValues f) := by
  obtain ⟨⟨es, hst⟩, hc⟩ := h
  exact ⟨⟨_, hst.mapValues f⟩, hc⟩

/-- What `set` does: it stores the pair and says whether the key was there, or it fails and the key
was not there. -/
theorem StoreInv.set (h : StoreInv sm) (kvp : KeyValuePair KeyNode ν) :
    ∃ rtn sm' old, sm.set .ok kvp compare = (rtn, sm', old) ∧ StoreInv sm' ∧
      (∀ k ≠ kvp.key.content, entryAt sm' k = entryAt sm k) ∧
      ((rtn = .sucessSet ∧ entryAt sm kvp.key.content = none ∧
          entryAt sm' kvp.key.content = some kvp ∧ old = kvp) ∨
        (rtn = .sucessUpgrade ∧ entryAt sm kvp.key.content = some old ∧
          entryAt sm' kvp.key.content = some kvp) ∨
        (rtn = .errorSetSmRtn ∧ entryAt sm kvp.key.content = none ∧ sm' = sm ∧ old = kvp)) := by
  obtain ⟨⟨es, hst⟩, hc⟩ := h
  have hput := Keyed.lookup_put hst.distinct (kvp.key, kvp.value)
  rw [compare_eq_cmpBy]
  rcases hst.set_cases hc kvp with ⟨sm', hst', hc', hset⟩ | ⟨-, hl, hset⟩
  · have hother : ∀ k ≠ kvp.key.content, entryAt sm' k = entryAt sm k := by
      intro k hk
      rw [entryAt_eq hst', entryAt_eq hst, hput k]
      rw [if_neg hk]
    have hown : entryAt sm' kvp.key.content = some kvp := by
      rw [entryAt_eq hst', hput kvp.key.content]
      rw [if_pos rfl]
      rfl
    cases hl : Keyed.lookup (SimpleMap.ident KeyNode.id) es (KeyNode.id kvp.key) with
    | none =>
      rw [hl] at hset
      refine ⟨_, _, _, hset, ⟨⟨_, hst'⟩, hc'⟩, hother, .inl ⟨rfl, ?_, hown, rfl⟩⟩
      rw [entryAt_eq hst]
      exact congrArg _ hl
    | some e =>
      rw [hl] at hset
      refine ⟨_, _, _, hset, ⟨⟨_, hst'⟩, hc'⟩, hother, .inr (.inl ⟨rfl, ?_, hown⟩)⟩
      rw [entryAt_eq hst]
      exact congrArg _ hl
  · refine ⟨_, _, _, hset, ⟨⟨es, hst⟩, hc⟩, fun _ _ => rfl, .inr (.inr ⟨rfl, ?_, rfl, rfl⟩)⟩
    rw [entryAt_eq hst]
    exact congrArg _ hl

/-- What `remove_key` does. -/
theorem StoreInv.removeKey (h : StoreInv sm) (key : KeyNode) :
    ∃ state sm', sm.removeKey key compare = (state, sm', entryAt sm key.content) ∧ StoreInv sm' ∧
      (∀ k ≠ key.content, entryAt sm' k = entryAt sm k) ∧ entryAt sm' key.content = none ∧
      (entryAt sm key.content = none → state = .removeKeyNotFound ∧ sm' = sm) := by
  obtain ⟨⟨es, hst⟩, hc⟩ := h
  have habsent (ha : Keyed.lookup (SimpleMap.ident KeyNode.id) es (KeyNode.id key) = none) :
      sm.removeKey key (SimpleMap.cmpBy KeyNode.id) = (.removeKeyNotFound, sm, none) :=
    hst.removeKey_absent ha
  obtain ⟨sm', hst', hc', hrm⟩ := hst.removeKey_eq key
  have hrem := Keyed.lookup_remove hst.distinct (KeyNode.id key)
  have hother : ∀ k ≠ key.content, entryAt sm' k = entryAt sm k := by
    intro k hk
    rw [entryAt_eq hst', entryAt_eq hst, hrem k]
    rw [if_neg hk]
  have hown : entryAt sm' key.content = none := by
    rw [entryAt_eq hst', hrem key.content]
    rw [if_pos rfl]
    rfl
  have hinv : StoreInv sm' := ⟨⟨_, hst'⟩, by omega⟩
  rw [compare_eq_cmpBy, entryAt_eq hst]
  cases hl : Keyed.lookup (SimpleMap.ident KeyNode.id) es (KeyNode.id key) with
  | none =>
    rw [hl] at hrm
    have hsm : sm' = sm := congrArg (·.2.1) (hrm.symm.trans (habsent hl))
    exact ⟨_, _, hrm, hinv, hother, hown, fun _ => ⟨rfl, hsm⟩⟩
  | some e =>
    rw [hl] at hrm
    exact ⟨_, _, hrm, hinv, hother, hown, nofun⟩

end Store

/-! ## The nodes -/

/-- The map is one, each pair that it holds is in the nodes, and no two are in one block. -/
structure SharedInv (m : Shared) : Prop where
  map : StoreInv m.map
  live : ∀ k e, entryAt m.map k = some e → m.nodes.load e.value.addr = some ⟨e.key, e.value.node⟩
  apart : ∀ k k' e e', entryAt m.map k = some e → entryAt m.map k' = some e' →
    e.value.addr = e'.value.addr → k = k'

/-- `a` is a block, and no pair of the map is in it. -/
def Shared.Spare (m : Shared) (a : Nat) : Prop :=
  (m.nodes.load a).isSome = true ∧ ∀ k e, entryAt m.map k = some e → e.value.addr ≠ a

theorem Shared.Spare.lt {m : Shared} {a : Nat} (h : m.Spare a) : a < m.nodes.size := by
  obtain ⟨c, hc⟩ := Option.isSome_iff_exists.mp h.1
  exact Heap.lt_size_of_load hc

theorem sharedInv_create : SharedInv Shared.create where
  map := ⟨⟨[], SimpleMap.stores_create⟩, by decide⟩
  live _ _ he := by cases he
  apart _ _ _ _ he := by cases he

namespace SharedInv

variable {m : Shared}

theorem store (h : SharedInv m) : StoreInv m.store := h.map.mapValues _

theorem addr_lt (h : SharedInv m) {k : Bytes} {e : KeyValuePair KeyNode Located}
    (he : entryAt m.map k = some e) : e.value.addr < m.nodes.size :=
  Heap.lt_size_of_load (h.live k e he)

/-- A map with a new pair in a new block under the key `k`, and the others where they were. -/
theorem placed (h : SharedInv m) {kvp : KeyValuePair KeyNode ValueNode}
    {sm' : SimpleMap KeyNode Located} (hi : StoreInv sm')
    (hother : ∀ k ≠ kvp.key.content, entryAt sm' k = entryAt m.map k)
    (hown : entryAt sm' kvp.key.content = some ⟨kvp.key, kvp.value, m.nodes.size⟩) :
    SharedInv ⟨sm', m.nodes.alloc kvp⟩ ∧
      ∀ a, m.Spare a → Shared.Spare ⟨sm', m.nodes.alloc kvp⟩ a := by
  -- An address is the new one, under the new key, or an old one, below it.
  have hcases : ∀ k e, entryAt sm' k = some e →
      (k = kvp.key.content ∧ e = ⟨kvp.key, kvp.value, m.nodes.size⟩) ∨
        (entryAt m.map k = some e ∧ e.value.addr < m.nodes.size) := by
    intro k e he
    by_cases hk : k = kvp.key.content
    · subst hk
      exact .inl ⟨rfl, Option.some.inj (he.symm.trans hown)⟩
    · rw [hother k hk] at he
      exact .inr ⟨he, h.addr_lt he⟩
  refine ⟨⟨hi, fun k e he => ?_, fun k k' e e' he he' ha => ?_⟩, fun a ha => ⟨?_, fun k e he hea => ?_⟩⟩
  · rcases hcases k e he with ⟨-, rfl⟩ | ⟨he, hlt⟩
    · exact Heap.load_alloc_size ..
    · exact (Heap.load_alloc_of_lt hlt kvp).trans (h.live k e he)
  · rcases hcases k e he with ⟨rfl, rfl⟩ | ⟨he, hlt⟩
    · rcases hcases k' e' he' with ⟨rfl, -⟩ | ⟨-, hlt'⟩
      · rfl
      · exact absurd ha.symm (Nat.ne_of_lt hlt')
    · rcases hcases k' e' he' with ⟨-, rfl⟩ | ⟨he', -⟩
      · exact absurd ha (Nat.ne_of_lt hlt)
      · exact h.apart k k' e e' he he' ha
  · exact (congrArg Option.isSome (Heap.load_alloc_of_lt ha.lt kvp)).trans ha.1
  · rcases hcases k e he with ⟨-, rfl⟩ | ⟨he, -⟩
    · exact absurd hea.symm (Nat.ne_of_lt ha.lt)
    · exact ha.2 k e he hea

/-- `set`: the new pair is in a new block. Unless it is in the map now, the caller has a pair after it
that is not: the new one, or the one that was there under the key. -/
theorem set (h : SharedInv m) (kvp : KeyValuePair KeyNode ValueNode) :
    ∃ rtn m' old, m.set kvp = (rtn, m', old) ∧ SharedInv m' ∧
      (∀ a, m.Spare a → m'.Spare a) ∧
      (rtn ≠ .sucessSet → m'.Spare old.value.addr ∧ ¬ m.Spare old.value.addr) ∧
      (∀ k ≠ kvp.key.content, entryAt m'.map k = entryAt m.map k) ∧
      ((entryAt m'.map kvp.key.content).isSome = true ∨ m'.map = m.map) := by
  obtain ⟨rtn, sm', old, hset, hi, hother, hcase⟩ :=
    h.map.set ⟨kvp.key, (⟨kvp.value, m.nodes.size⟩ : Located)⟩
  have heq : m.set kvp = (rtn, ⟨sm', m.nodes.alloc kvp⟩, old) := by rw [Shared.set, hset]
  have hload {a : Nat} (ha : a < m.nodes.size) :
      (m.nodes.alloc kvp).load a = m.nodes.load a := Heap.load_alloc_of_lt ha kvp
  rcases hcase with ⟨rfl, hn, hown, -⟩ | ⟨rfl, hold, hown⟩ | ⟨rfl, hn, rfl, rfl⟩
  · obtain ⟨hinv, hspare⟩ := placed h hi hother hown
    exact ⟨_, _, _, heq, hinv, hspare, fun hne => absurd rfl hne, hother,
      .inl (by rw [hown]; rfl)⟩
  · obtain ⟨hinv, hspare⟩ := placed h hi hother hown
    refine ⟨_, _, _, heq, hinv, hspare, fun _ => ⟨⟨?_, fun k e he ha => ?_⟩, fun hs => ?_⟩, hother,
      .inl (by rw [hown]; rfl)⟩
    · rw [hload (h.addr_lt hold), h.live _ _ hold]
      rfl
    · by_cases hk : k = kvp.key.content
      · subst hk
        cases hown.symm.trans he
        exact absurd ha.symm (Nat.ne_of_lt (h.addr_lt hold))
      · exact hk (h.apart k _ e old ((hother k hk).symm.trans he) hold ha)
    · exact hs.2 _ _ hold rfl
  · refine ⟨_, _, _, heq, ⟨hi, fun k e he => ?_, h.apart⟩, fun a ha => ⟨?_, ha.2⟩,
      fun _ => ⟨⟨?_, fun k e he ha => ?_⟩,
        fun hs => Nat.lt_irrefl _ hs.lt⟩, hother, .inr rfl⟩
    · exact (hload (h.addr_lt he)).trans (h.live k e he)
    · exact (congrArg Option.isSome (hload ha.lt)).trans ha.1
    · exact congrArg Option.isSome (Heap.load_alloc_size ..)
    · exact absurd ha (Nat.ne_of_lt (h.addr_lt he))

/-- `remove_key`: the caller gets the nodes of the pair that was there. -/
theorem removeKey (h : SharedInv m) (key : KeyNode) :
    ∃ state m', m.removeKey key =
        (state, m', (entryAt m.map key.content).map fun e => e.value.addr) ∧
      SharedInv m' ∧ (∀ a, m.Spare a → m'.Spare a) ∧
      (∀ e, entryAt m.map key.content = some e →
        m'.Spare e.value.addr ∧ ¬ m.Spare e.value.addr) ∧
      (∀ k ≠ key.content, entryAt m'.map k = entryAt m.map k) ∧
      entryAt m'.map key.content = none := by
  obtain ⟨state, sm', hrm, hi, hother, hown, -⟩ := h.map.removeKey key
  have heq : m.removeKey key =
      (state, ⟨sm', m.nodes⟩, (entryAt m.map key.content).map fun e => e.value.addr) := by
    rw [Shared.removeKey, hrm]
  have hsub : ∀ k e, entryAt sm' k = some e → entryAt m.map k = some e := by
    intro k e he
    by_cases hk : k = key.content
    · rw [hk, hown] at he
      cases he
    · rw [← hother k hk, he]
  refine ⟨_, _, heq, ⟨hi, fun k e he => h.live k e (hsub k e he), fun k k' e e' he he' =>
    h.apart k k' e e' (hsub k e he) (hsub k' e' he')⟩,
    fun a ha => ⟨ha.1, fun k e he => ha.2 k e (hsub k e he)⟩,
    fun e he => ⟨⟨?_, fun k e' he' ha => ?_⟩, fun hs => hs.2 _ _ he rfl⟩, hother, hown⟩
  · exact congrArg Option.isSome (h.live _ e he)
  · have hk := h.apart k key.content e' e (hsub k e' he') he ha
    rw [hk, hown] at he'
    cases he'

theorem free (h : SharedInv m) {a : Nat} (ha : m.Spare a) : SharedInv (m.free a) where
  map := h.map
  live k e he := (Heap.load_free_ne (ha.2 k e he).symm).trans (h.live k e he)
  apart := h.apart

end SharedInv
end RedisImpl
