import RedisImpl.Lib.Linear
import RedisImpl.Store.InMemory
import RedisImpl.Store.Spec

/-!
# The blocks of a map

`Layout κ ν`: where the blocks of a map are, with its keys and values, which have blocks of their own
(`Owned`). A comparison (`Compares`) may read the blocks of the keys. `__find` and `get` of
`Store/InMemory.lean` find what `Keyed.pos` and `Keyed.lookup` find in the entries
(`find_reads`, `get_absent`, `get_present`).
-/

namespace RedisImpl
namespace InMemory

open Heap

/-- What a `void*` points to: its address, and all blocks of it. -/
class Owned (κ : Type) (δ : outParam Type) where
  addr : κ → Nat
  blocks : κ → Multiset (Nat × Obj δ)

variable {δ κ ν ι : Type} [Owned κ δ] [Owned ν δ]

/-- The pointer to it. -/
def Owned.ptr (k : κ) : Ptr := some (Owned.addr k)

/-- A slot with its wrappers. -/
structure Slot (κ ν : Type) where
  kw : Nat
  vw : Nat
  key : κ
  value : ν

namespace Slot

def entry (s : Slot κ ν) : κ × ν := (s.key, s.value)

def wrappers (s : Slot κ ν) : Multiset (Nat × Obj δ) :=
  pt s.kw (.wrapper (Owned.ptr s.key)) + pt s.vw (.wrapper (Owned.ptr s.value))

def data (s : Slot κ ν) : Multiset (Nat × Obj δ) := Owned.blocks s.key + Owned.blocks s.value

def blocks (s : Slot κ ν) : Multiset (Nat × Obj δ) := s.wrappers + s.data

end Slot

/-- The blocks of some slots. -/
def slotBlocks (ss : List (Slot κ ν)) : Multiset (Nat × Obj δ) := (ss.map Slot.blocks).sum

@[simp] theorem slotBlocks_nil : slotBlocks ([] : List (Slot κ ν)) = 0 := rfl

@[simp] theorem slotBlocks_cons (s : Slot κ ν) (ss : List (Slot κ ν)) :
    slotBlocks (s :: ss) = s.blocks + slotBlocks ss := by
  simp [slotBlocks]

@[simp] theorem slotBlocks_append (ss ts : List (Slot κ ν)) :
    slotBlocks (ss ++ ts) = slotBlocks ss + slotBlocks ts := by
  simp [slotBlocks]

theorem blocks_subset {s : Slot κ ν} {ss : List (Slot κ ν)} (h : s ∈ ss) :
    s.blocks ⊆ slotBlocks ss := by
  obtain ⟨l, r, rfl⟩ := List.append_of_mem h
  intro x hx
  simp [hx]

/-- The slots of an array: the wrappers, then the free ones. -/
def wrapperSlots (f : Slot κ ν → Nat) (ss : List (Slot κ ν)) (t : List (Option Ptr)) :
    List (Option Ptr) :=
  ss.map (fun s => some (some (f s))) ++ t

/-- The record of a map and its arrays. -/
def arrayBlocks (sm keys values : Nat) (capacity top : Int) (ks vs : List (Option Ptr)) :
    Multiset (Nat × Obj δ) :=
  pt sm (.simpleMap ⟨some keys, some values, capacity, top⟩) +
    (pt keys (.slots ks) + pt values (.slots vs))

/-- Where a map is. Both arrays have `capacity` slots. -/
structure Layout (κ ν : Type) where
  sm : Nat
  keys : Nat
  values : Nat
  slots : List (Slot κ ν)
  kt : List (Option Ptr)
  vt : List (Option Ptr)
  same : vt.length = kt.length
  pos : 0 < slots.length + kt.length

namespace Layout

def capacity (l : Layout κ ν) : Nat := l.slots.length + l.kt.length

/-- The capacity when `__set` has made room for one more slot. -/
def grown (l : Layout κ ν) : Nat := if l.kt = [] then 2 * l.capacity else l.capacity

/-- `__set` cannot make room for one more slot. -/
def Stuck (l : Layout κ ν) : Prop := l.kt = [] ∧ 2 ^ 30 ≤ l.capacity

def entries (l : Layout κ ν) : List (κ × ν) := l.slots.map Slot.entry

def record (l : Layout κ ν) : SimpleMap :=
  ⟨some l.keys, some l.values, l.capacity, l.slots.length - 1⟩

/-- The record and the arrays. -/
def arrays (l : Layout κ ν) : Multiset (Nat × Obj δ) :=
  arrayBlocks l.sm l.keys l.values l.capacity (l.slots.length - 1)
    (wrapperSlots Slot.kw l.slots l.kt) (wrapperSlots Slot.vw l.slots l.vt)

def blocks (l : Layout κ ν) : Multiset (Nat × Obj δ) := l.arrays + slotBlocks l.slots

@[simp] theorem length_entries (l : Layout κ ν) : l.entries.length = l.slots.length := by
  simp [entries]

omit [Owned κ δ] [Owned ν δ] in
theorem keys_mem_arrays (l : Layout κ ν) :
    (l.keys, .slots (wrapperSlots Slot.kw l.slots l.kt)) ∈ (l.arrays : Multiset (Nat × Obj δ)) := by
  simp [arrays, arrayBlocks]

omit [Owned κ δ] [Owned ν δ] in
theorem values_mem_arrays (l : Layout κ ν) :
    (l.values, .slots (wrapperSlots Slot.vw l.slots l.vt)) ∈ (l.arrays : Multiset (Nat × Obj δ)) := by
  simp [arrays, arrayBlocks]

theorem sm_mem (l : Layout κ ν) : (l.sm, .simpleMap l.record) ∈ l.blocks := by
  simp [blocks, arrays, arrayBlocks, record]

theorem keys_mem (l : Layout κ ν) :
    (l.keys, .slots (wrapperSlots Slot.kw l.slots l.kt)) ∈ l.blocks :=
  Multiset.mem_add.mpr (.inl l.keys_mem_arrays)

theorem values_mem (l : Layout κ ν) :
    (l.values, .slots (wrapperSlots Slot.vw l.slots l.vt)) ∈ l.blocks :=
  Multiset.mem_add.mpr (.inl l.values_mem_arrays)

theorem slot_subset {l : Layout κ ν} {s : Slot κ ν} (h : s ∈ l.slots) : s.blocks ⊆ l.blocks := by
  intro x hx
  exact Multiset.mem_add.mpr (.inr (blocks_subset h hx))

theorem entry_subset {l : Layout κ ν} {e : κ × ν} (h : e ∈ l.entries) :
    Owned.blocks e.1 ⊆ l.blocks ∧ Owned.blocks e.2 ⊆ l.blocks := by
  obtain ⟨s, hs, rfl⟩ := List.mem_map.mp h
  constructor
  · intro x hx
    exact slot_subset hs (by simp [Slot.blocks, Slot.data, show x ∈ Owned.blocks s.key from hx])
  · intro x hx
    exact slot_subset hs (by simp [Slot.blocks, Slot.data, show x ∈ Owned.blocks s.value from hx])

end Layout

/-! ## Access -/

section Access

variable {B D : Multiset (Nat × Obj δ)} {a : Nat}

theorem simpleMapAt_reads {s : SimpleMap} (h : (a, .simpleMap s) ∈ B) :
    Reads B (simpleMapAt (some a)) s :=
  (Reads.load h).bind (Reads.ret s)

theorem wrapperAt_reads {p : Ptr} (h : (a, .wrapper p) ∈ B) : Reads B (wrapperAt (some a)) p :=
  (Reads.load h).bind (Reads.ret p)

theorem pairAt_reads {kvp : KeyValuePair Ptr Ptr} (h : (a, .pair kvp) ∈ B) :
    Reads B (pairAt (some a)) kvp :=
  (Reads.load h).bind (Reads.ret kvp)

theorem slotsAt_reads {ps : List (Option Ptr)} (h : (a, .slots ps) ∈ B) :
    Reads B (slotsAt (some a)) ps :=
  (Reads.load h).bind (Reads.ret ps)

theorem slotAt_reads {ps : List (Option Ptr)} {i : Nat} {p : Ptr} (h : (a, .slots ps) ∈ B)
    (hp : SimpleMap.slot ps i = some p) : Reads B (slotAt (some a) i) p := by
  refine (slotsAt_reads h).bind ?_
  rw [hp]
  exact .ret p

theorem setSlot_linear {ps : List (Option Ptr)} {i : Nat} (hi : i < ps.length) (p : Ptr) :
    Linear (pt a (.slots ps)) (setSlot (some a) i p : HeapM (Obj δ) Unit)
      fun _ C => C = pt a (.slots (ps.set i (some p))) := by
  refine Linear.read (slotsAt_reads (mem_pt.mpr rfl)) ?_
  rw [if_pos hi]
  exact Linear.of_bind_pure (Linear.store 0 _ (add_zero _).symm (Linear.ret (add_zero _)))

end Access

/-! ## Slots -/

theorem slot_wrapperSlots (f : Slot κ ν → Nat) (pre suf : List (Slot κ ν)) (s : Slot κ ν)
    (t : List (Option Ptr)) :
    SimpleMap.slot (wrapperSlots f (pre ++ s :: suf) t) pre.length = some (some (f s)) := by
  simp [wrapperSlots, SimpleMap.slot]

theorem slot_wrapperSlots_of (f : Slot κ ν → Nat) {ss : List (Slot κ ν)} {i : Nat} {s : Slot κ ν}
    (hi : ss[i]? = some s) (t : List (Option Ptr)) :
    SimpleMap.slot (wrapperSlots f ss t) i = some (some (f s)) := by
  obtain ⟨hlt, rfl⟩ := List.getElem?_eq_some_iff.mp hi
  simp [wrapperSlots, SimpleMap.slot, List.getElem?_append_left, hlt]

/-! ## `__find` and `get` -/

variable [DecidableEq ι]

/-- The comparison tells whether the keys are equal by `id`, and reads the two keys. -/
def Compares (cmp : CmpFptr δ) (id : κ → ι) : Prop :=
  ∀ a b : κ, ∃ p, Reads (Owned.blocks a + Owned.blocks b) (cmp (Owned.ptr a) (Owned.ptr b)) p ∧
    p.isSome = SimpleMap.cmpBy id a b

section Find

variable {id : κ → ι} {cmp : CmpFptr δ} {B : Multiset (Nat × Obj δ)} {l : Layout κ ν} {k : κ}

theorem key_subset (s : Slot κ ν) : Owned.blocks s.key ⊆ s.blocks := by
  intro x hx
  simp [Slot.blocks, Slot.data, hx]

theorem kw_mem (s : Slot κ ν) : (s.kw, .wrapper (Owned.ptr s.key)) ∈ s.blocks := by
  simp [Slot.blocks, Slot.wrappers]

theorem vw_mem (s : Slot κ ν) : (s.vw, .wrapper (Owned.ptr s.value)) ∈ s.blocks := by
  simp [Slot.blocks, Slot.wrappers]

/-- What `__find` returns. -/
def findResult (id : κ → ι) (es : List (κ × ν)) (k : κ) (i : Nat) : FindKey :=
  match Keyed.pos (SimpleMap.ident id) es (id k) with
  | none => .keyNotFound
  | some j => .pos (i + j)

theorem findResult_cons (id : κ → ι) (s : Slot κ ν) (es : List (κ × ν)) (k : κ) (i : Nat) :
    findResult id (s.entry :: es) k i =
      if id s.key = id k then .pos i else findResult id es k (i + 1) := by
  unfold findResult Keyed.pos
  rw [List.findIdx?_cons]
  by_cases hid : id s.key = id k
  · simp [SimpleMap.ident, Slot.entry, hid]
  · simp only [SimpleMap.ident, Slot.entry, hid, decide_false, if_false]
    cases es.findIdx? fun e => decide (id e.1 = id k) with
    | none => simp
    | some j =>
      simp
      omega

/-- The search from the slots `suf` on, after the slots `pre`. -/
theorem findFrom_reads (hcmp : Compares cmp id) {keys : Nat} {t : List (Option Ptr)}
    (pre suf : List (Slot κ ν)) (hkeys : (keys, .slots (wrapperSlots Slot.kw (pre ++ suf) t)) ∈ B)
    (hsuf : ∀ s ∈ suf, s.blocks ⊆ B) (hk : Owned.blocks k ⊆ B) :
    Reads B (findFrom cmp (some keys) (Owned.ptr k) suf.length pre.length)
      (findResult id (suf.map Slot.entry) k pre.length) := by
  induction suf generalizing pre with
  | nil => exact .ret _
  | cons s suf ih =>
    have hs := hsuf s List.mem_cons_self
    obtain ⟨p, hread, hp⟩ := hcmp s.key k
    refine (slotAt_reads hkeys (slot_wrapperSlots Slot.kw pre suf s t)).bind ?_
    rw [if_neg (by simp)]
    refine (wrapperAt_reads (hs (kw_mem s))).bind ?_
    have hsub : Owned.blocks s.key + Owned.blocks k ⊆ B := by
      intro x hx
      exact (Multiset.mem_add.mp hx).elim (fun h => hs (key_subset s h)) fun h => hk h
    refine (hread.mono hsub).bind ?_
    have ih := ih (pre ++ [s]) (by simpa using hkeys) fun s' hs' => hsuf s' (List.mem_cons_of_mem _ hs')
    rw [List.length_append, List.length_singleton] at ih
    rw [List.map_cons, findResult_cons, hp]
    by_cases hid : id s.key = id k
    · rw [if_pos (by simpa [SimpleMap.cmpBy] using hid), if_pos hid]
      exact .ret _
    · rw [if_neg (by simpa [SimpleMap.cmpBy] using hid), if_neg hid]
      exact ih

theorem find_reads (hcmp : Compares cmp id) (hl : l.blocks ⊆ B) (hk : Owned.blocks k ⊆ B) :
    Reads B (find (some l.sm) (Owned.ptr k) cmp) (findResult id l.entries k 0) := by
  unfold find
  rw [if_neg (by simp [Owned.ptr])]
  refine (simpleMapAt_reads (hl l.sm_mem)).bind ?_
  rw [if_neg (by simp [Layout.record])]
  have htop : (l.record.top + 1).toNat = l.slots.length := by
    simp [Layout.record]
  rw [htop]
  exact findFrom_reads hcmp [] l.slots (hl l.keys_mem)
    (fun s hs => Multiset.Subset.trans (Layout.slot_subset hs) hl) hk

theorem find_absent (hcmp : Compares cmp id) (hl : l.blocks ⊆ B) (hk : Owned.blocks k ⊆ B)
    (ha : Keyed.lookup (SimpleMap.ident id) l.entries (id k) = none) :
    Reads B (find (some l.sm) (Owned.ptr k) cmp) .keyNotFound := by
  have h := find_reads hcmp hl hk
  rwa [findResult, Keyed.pos_eq_none.mpr ha] at h

omit [Owned κ δ] [Owned ν δ] in
/-- The first slot with the key. -/
theorem split_of_lookup {ss : List (Slot κ ν)} {e : κ × ν}
    (he : Keyed.lookup (SimpleMap.ident id) (ss.map Slot.entry) (id k) = some e) :
    ∃ pre s suf, ss = pre ++ s :: suf ∧ s.entry = e ∧ id s.key = id k ∧
      (∀ x ∈ pre, id x.key ≠ id k) ∧
      Keyed.pos (SimpleMap.ident id) (ss.map Slot.entry) (id k) = some pre.length := by
  induction ss with
  | nil => cases he
  | cons s ss ih =>
    by_cases hid : id s.key = id k
    · simp [Keyed.lookup, SimpleMap.ident, Slot.entry, hid] at he
      refine ⟨[], s, ss, rfl, he, hid, by simp, ?_⟩
      simp [Keyed.pos, SimpleMap.ident, Slot.entry, List.findIdx?_cons, hid]
    · have he' : Keyed.lookup (SimpleMap.ident id) (ss.map Slot.entry) (id k) = some e := by
        simpa [Keyed.lookup, SimpleMap.ident, Slot.entry, hid] using he
      obtain ⟨pre, s', suf, rfl, hse, hs', hpre, hpos⟩ := ih he'
      refine ⟨s :: pre, s', suf, rfl, hse, hs', ?_, ?_⟩
      · intro x hx
        rcases List.mem_cons.mp hx with rfl | hx
        · exact hid
        · exact hpre x hx
      · unfold Keyed.pos at hpos ⊢
        rw [List.map_cons, List.findIdx?_cons, hpos]
        simp [SimpleMap.ident, Slot.entry, hid]

/-- The slot that `__find` finds. -/
theorem find_present (hcmp : Compares cmp id) (hl : l.blocks ⊆ B) (hk : Owned.blocks k ⊆ B)
    {pre : List (Slot κ ν)}
    (hpos : Keyed.pos (SimpleMap.ident id) l.entries (id k) = some pre.length) :
    Reads B (find (some l.sm) (Owned.ptr k) cmp) (.pos pre.length) := by
  have h := find_reads hcmp hl hk
  simp only [findResult, hpos, Nat.zero_add] at h
  exact h

theorem get_absent (hcmp : Compares cmp id) (hl : l.blocks ⊆ B) (hk : Owned.blocks k ⊆ B)
    (ha : Keyed.lookup (SimpleMap.ident id) l.entries (id k) = none) :
    Reads B (get (some l.sm) (Owned.ptr k) cmp) none := by
  unfold get
  rw [if_neg (by simp [Owned.ptr])]
  exact (find_absent hcmp hl hk ha).bind (.ret none)

theorem get_present (hcmp : Compares cmp id) (hl : l.blocks ⊆ B) (hk : Owned.blocks k ⊆ B) {e : κ × ν}
    (he : Keyed.lookup (SimpleMap.ident id) l.entries (id k) = some e) :
    Linear B (get (some l.sm) (Owned.ptr k) cmp) fun kvp C =>
      ∃ a, kvp = some a ∧ C = pt a (.pair ⟨Owned.ptr e.1, Owned.ptr e.2⟩) + B := by
  obtain ⟨pre, s, suf, hslots, rfl, -, -, hpos⟩ := split_of_lookup he
  have hs : l.slots[pre.length]? = some s := by simp [hslots]
  unfold get
  rw [if_neg (by simp [Owned.ptr])]
  refine Linear.read (find_present hcmp hl hk hpos) ?_
  refine Linear.alloc _ fun a => ?_
  have hl' : l.blocks ⊆ pt a (.pair ⟨none, none⟩) + B := Multiset.Subset.trans hl (by
    intro x hx
    exact Multiset.mem_add.mpr (.inr hx))
  have hb := Multiset.Subset.trans (Layout.slot_subset (List.mem_of_getElem? hs)) hl'
  refine Linear.read (simpleMapAt_reads (hl' l.sm_mem)) ?_
  refine Linear.read (slotAt_reads (hl' l.keys_mem) (slot_wrapperSlots_of Slot.kw hs l.kt))
    ?_
  refine Linear.read (wrapperAt_reads (hb (kw_mem s))) ?_
  refine Linear.read (slotAt_reads (hl' l.values_mem) (slot_wrapperSlots_of Slot.vw hs l.vt))
    ?_
  refine Linear.read (wrapperAt_reads (hb (vw_mem s))) ?_
  exact Linear.store B _ rfl (Linear.ret ⟨a, rfl, rfl⟩)

end Find

end InMemory
end RedisImpl
