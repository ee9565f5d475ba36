import RedisImpl.Store.Layout

/-!
# Changes to the blocks of a map

What `set`, `remove_key`, `create_simple_map` and `delete_map` of `Store/InMemory.lean` do to a map
that is laid out as a `Layout`, with every block accounted for:

* `set_absent`, `set_present`: the map takes the key and the value of the pair, and hands back the
  ones that were there;
* `removeKey_present`: the entry goes, and its two wrappers are left behind;
* `deleteMap_linear`: all blocks of the map are freed.
-/

namespace RedisImpl
namespace InMemory

open Heap

variable {δ κ ν ι : Type} [Owned κ δ] [Owned ν δ] [DecidableEq ι]

/-! ## `set` -/

section Set

variable {l : Layout κ ν}

theorem set_wrapperSlots (f : Slot κ ν → Nat) (ss : List (Slot κ ν)) (s : Slot κ ν)
    (x : Option Ptr) (t : List (Option Ptr)) :
    (wrapperSlots f ss (x :: t)).set ss.length (some (some (f s))) =
      wrapperSlots f (ss ++ [s]) t := by
  simp [wrapperSlots]

@[simp] theorem length_wrapperSlots (f : Slot κ ν → Nat) (ss : List (Slot κ ν))
    (t : List (Option Ptr)) : (wrapperSlots f ss t).length = ss.length + t.length := by
  simp [wrapperSlots]

section Arrays

variable {sm keys values n : Nat} {capacity : Int} {ks vs : List (Option Ptr)}

/-- The slot `n` after the filled ones gets the wrappers. -/
theorem push_linear (hk : n < ks.length) (hv : n < vs.length) (key value : Ptr) :
    Linear (arrayBlocks sm keys values capacity (n - 1) ks vs) (push (some sm) key value)
      fun _ (C : Multiset (Nat × Obj δ)) => C = arrayBlocks sm keys values capacity n
        (ks.set n (some key)) (vs.set n (some value)) := by
  unfold push
  refine Linear.read (simpleMapAt_reads (by simp [arrayBlocks]; rfl)) ?_
  refine Linear.store _ _ rfl ?_
  refine Linear.read (simpleMapAt_reads (by simp; rfl)) ?_
  simp only [Int.sub_add_cancel, Int.toNat_natCast]
  let record : Multiset (Nat × Obj δ) := pt sm (.simpleMap ⟨some keys, some values, capacity, n⟩)
  refine Linear.call (setSlot_linear hk key) (record + pt values (.slots vs)) (by abel) ?_
  rintro _ _ rfl
  refine Linear.last (setSlot_linear hv value) (record + pt keys (.slots (ks.set n (some key))))
    (by abel) ?_
  rintro _ _ rfl
  unfold arrayBlocks
  abel

theorem realloc_linear (a n : Nat) :
    Linear (pt a (.slots ks)) (realloc true (some a) n : HeapM (Obj δ) Ptr)
      fun p C => ∃ b, p = some b ∧ C = pt b (.slots (SimpleMap.resize ks n)) := by
  unfold realloc
  rw [if_neg (by simp)]
  refine Linear.read (slotsAt_reads (mem_pt.mpr rfl)) ?_
  refine Linear.alloc _ fun b => ?_
  exact Linear.free _ (by abel) (Linear.ret ⟨b, rfl, rfl⟩)

theorem isFull_reads {B : Multiset (Nat × Obj δ)} {s : SimpleMap}
    (h : (sm, .simpleMap s) ∈ B) : Reads B (isFull (some sm)) (decide (s.top + 1 = s.capacity)) :=
  (simpleMapAt_reads h).bind (.ret _)

/-- The arrays cannot grow. -/
theorem doubleArrays_reads {B : Multiset (Nat × Obj δ)} {s : SimpleMap}
    (h : (sm, .simpleMap s) ∈ B) (hm : SimpleMap.doubledCapacity s.capacity = none) :
    Reads B (doubleArrays .ok (some sm)) none := by
  unfold doubleArrays
  rw [if_neg (by simp)]
  refine (simpleMapAt_reads h).bind ?_
  split
  · exact .ret none
  · refine (isFull_reads h).bind ?_
    split
    · exact .ret none
    · simp only [hm]
      exact .ret none

/-- The arrays with `m` slots. -/
theorem doubleArrays_linear {m : Nat} (h0 : capacity ≠ 0)
    (hm : SimpleMap.doubledCapacity capacity = some m) :
    Linear (arrayBlocks sm keys values capacity (capacity - 1) ks vs)
      (doubleArrays .ok (some sm)) fun p (C : Multiset (Nat × Obj δ)) => p = some sm ∧
        ∃ keys' values', C = arrayBlocks sm keys' values' m (capacity - 1) (SimpleMap.resize ks m)
          (SimpleMap.resize vs m) := by
  have hsm : (sm, .simpleMap ⟨some keys, some values, capacity, capacity - 1⟩) ∈
      (arrayBlocks sm keys values capacity (capacity - 1) ks vs : Multiset (Nat × Obj δ)) := by
    simp [arrayBlocks]
  unfold doubleArrays
  rw [if_neg (by simp)]
  refine Linear.read (simpleMapAt_reads hsm) ?_
  rw [if_neg (by simp)]
  refine Linear.read (isFull_reads hsm) ?_
  rw [if_neg (by simp [h0])]
  simp only [hm]
  unfold growArrays
  let record : Multiset (Nat × Obj δ) :=
    pt sm (.simpleMap ⟨some keys, some values, capacity, capacity - 1⟩)
  refine Linear.call (realloc_linear keys m) (record + pt values (.slots vs))
    (by unfold arrayBlocks; abel) ?_
  rintro _ _ ⟨keys', rfl, rfl⟩
  rw [if_neg (by simp)]
  refine Linear.call (realloc_linear values m) (record + pt keys' (.slots (SimpleMap.resize ks m)))
    (by abel) ?_
  rintro _ _ ⟨values', rfl, rfl⟩
  rw [if_neg (by simp)]
  refine Linear.store (pt keys' (.slots (SimpleMap.resize ks m)) +
    pt values' (.slots (SimpleMap.resize vs m))) _ (by abel) ?_
  exact Linear.ret ⟨rfl, keys', values', rfl⟩

end Arrays

theorem resize_wrapperSlots (f : Slot κ ν → Nat) (ss : List (Slot κ ν)) {n : Nat}
    (hn : ss.length ≤ n) :
    SimpleMap.resize (wrapperSlots f ss []) n =
      wrapperSlots f ss (List.replicate (n - ss.length) none) := by
  simp [SimpleMap.resize, wrapperSlots, hn]

omit [Owned κ δ] [Owned ν δ] in
/-- The arrays of a map that is full. -/
theorem Layout.double_linear (hs : l.slots.length < 2 ^ 30) (hfull : l.kt = []) :
    Linear l.arrays (doubleArrays .ok (some l.sm)) fun p (C : Multiset (Nat × Obj δ)) =>
      p = some l.sm ∧ ∃ l' : Layout κ ν, l'.sm = l.sm ∧ l'.slots = l.slots ∧ l'.kt ≠ [] ∧
        l'.capacity = 2 * l.capacity ∧ C = l'.arrays := by
  obtain ⟨sm, keys, values, ss, kt, vt, same, pos⟩ := l
  obtain rfl : kt = [] := hfull
  obtain rfl : vt = [] := List.eq_nil_of_length_eq_zero same
  have hpos : 0 < ss.length := pos
  have hlen : ss.length < 2 ^ 30 := hs
  have hm : SimpleMap.doubledCapacity (ss.length : Int) = some (2 * ss.length) :=
    SimpleMap.doubledCapacity_eq (by omega) (by omega)
  refine (doubleArrays_linear (by omega) hm).conseq ?_
  rintro p C ⟨rfl, keys', values', rfl⟩
  let t : List (Option Ptr) := List.replicate (2 * ss.length - ss.length) none
  have ht : t.length = ss.length := by
    rw [List.length_replicate]
    omega
  refine ⟨rfl, ⟨sm, keys', values', ss, t, t, rfl, by omega⟩, rfl, rfl, ?_, ?_, ?_⟩
  · exact List.ne_nil_of_length_pos (hpos.trans_eq ht.symm)
  · show ss.length + t.length = 2 * (ss.length + 0)
    omega
  · have hle : ss.length ≤ 2 * ss.length := by omega
    rw [resize_wrapperSlots _ _ hle, resize_wrapperSlots _ _ hle]
    have hc : ((2 * ss.length : Nat) : Int) = ((ss.length + t.length : Nat) : Int) := by omega
    rw [hc]
    rfl

omit [Owned κ δ] [Owned ν δ] in
/-- A slot after the others. -/
theorem Layout.push_linear (hroom : l.kt ≠ []) (s : Slot κ ν) :
    Linear l.arrays (push (some l.sm) (some s.kw) (some s.vw)) fun _ (C : Multiset (Nat × Obj δ)) =>
      ∃ l' : Layout κ ν, l'.sm = l.sm ∧ l'.slots = l.slots ++ [s] ∧ l'.capacity = l.capacity ∧
        C = l'.arrays := by
  obtain ⟨sm, keys, values, ss, _ | ⟨x, kt⟩, _ | ⟨y, vt⟩, same, pos⟩ := l
  · exact absurd rfl hroom
  · exact absurd rfl hroom
  · cases same
  refine (InMemory.push_linear (by simp) (by simp) (some s.kw) (some s.vw)).conseq ?_
  rintro _ _ rfl
  have hc : Layout.capacity ⟨sm, keys, values, ss, x :: kt, y :: vt, same, pos⟩ =
      (ss ++ [s]).length + kt.length := by
    simp only [Layout.capacity, List.length_append, List.length_cons, List.length_nil]
    omega
  have hpos : 0 < (ss ++ [s]).length + kt.length := by
    rw [List.length_append, List.length_singleton]
    omega
  refine ⟨⟨sm, keys, values, ss ++ [s], kt, vt, Nat.succ.inj same, hpos⟩, rfl, rfl, hc.symm, ?_⟩
  rw [set_wrapperSlots, set_wrapperSlots]
  have ht : (ss.length : Int) = ((ss ++ [s]).length : Int) - 1 := by simp
  rw [hc, ht]
  rfl

/-- The blocks of a pair with a key and a value. -/
def pairBlocks (q : Nat) (k : κ) (v : ν) : Multiset (Nat × Obj δ) :=
  pt q (.pair ⟨Owned.ptr k, Owned.ptr v⟩) + (Owned.blocks k + Owned.blocks v)

theorem pair_mem (q : Nat) (k : κ) (v : ν) :
    (q, .pair ⟨Owned.ptr k, Owned.ptr v⟩) ∈ pairBlocks q k v := by
  simp [pairBlocks]

theorem subset_pairBlocks (q : Nat) (k : κ) (v : ν) : Owned.blocks k ⊆ pairBlocks q k v := by
  intro x hx
  simp [pairBlocks, hx]

/-- The last part of `__set`, with room for the slot. -/
theorem push_slot (hroom : l.kt ≠ []) (s : Slot κ ν) (q : Nat) :
    Linear (l.arrays + (slotBlocks l.slots + s.blocks + pt q (.pair ⟨Owned.ptr s.key, Owned.ptr s.value⟩)))
      (do
        push (some l.sm) (some s.kw) (some s.vw)
        return some q)
      fun p C => p = some q ∧ ∃ l' : Layout κ ν, l'.sm = l.sm ∧
        l'.entries = l.entries ++ [s.entry] ∧ l'.capacity = l.capacity ∧
          C = l'.blocks + pt q (.pair ⟨Owned.ptr s.key, Owned.ptr s.value⟩) := by
  refine Linear.call (Layout.push_linear hroom s) _ rfl ?_
  rintro _ _ ⟨l', hsm, hslots, hcap, rfl⟩
  refine Linear.ret ⟨rfl, l', hsm, ?_, hcap, ?_⟩
  · rw [Layout.entries, hslots]
    simp [Layout.entries]
  · rw [Layout.blocks, hslots]
    simp only [slotBlocks_append, slotBlocks_cons, slotBlocks_nil]
    abel

/-- `__set`: the map takes the pair, or it is full and cannot grow. -/
theorem setNew_linear (hc : l.capacity < 2 ^ 31) (q : Nat) (k : κ) (v : ν) :
    Linear (l.blocks + pairBlocks q k v) (setNew .ok (some l.sm) (some q)) fun p C =>
      (l.Stuck ∧ p = none ∧ C = l.blocks + pairBlocks q k v) ∨
        (¬ l.Stuck ∧ p = some q ∧ ∃ l' : Layout κ ν, l'.sm = l.sm ∧
          l'.entries = l.entries ++ [(k, v)] ∧ l'.capacity = l.grown ∧
            C = l'.blocks + pt q (.pair ⟨Owned.ptr k, Owned.ptr v⟩)) := by
  have hq : (q, .pair ⟨Owned.ptr k, Owned.ptr v⟩) ∈ l.blocks + pairBlocks q k v :=
    Multiset.mem_add.mpr (.inr (pair_mem q k v))
  have hsm : (l.sm, .simpleMap l.record) ∈ l.blocks + pairBlocks q k v :=
    Multiset.mem_add.mpr (.inl l.sm_mem)
  have hcap : l.capacity ≠ 0 := Nat.ne_of_gt l.pos
  unfold setNew
  rw [if_neg (by simp)]
  refine Linear.read (simpleMapAt_reads hsm) ?_
  refine Linear.read (pairAt_reads hq) ?_
  rw [if_neg (by simp [Layout.record, Owned.ptr, hcap])]
  refine Linear.alloc _ fun kw => ?_
  refine Linear.alloc _ fun vw => ?_
  let s : Slot κ ν := ⟨kw, vw, k, v⟩
  have hsm' : (l.sm, .simpleMap l.record) ∈ pt vw (.wrapper (Owned.ptr v)) +
      (pt kw (.wrapper (Owned.ptr k)) + (l.blocks + pairBlocks q k v)) := by
    simp [hsm]
  refine Linear.read (isFull_reads hsm') ?_
  have hblocks : pt vw (.wrapper (Owned.ptr v)) +
      (pt kw (.wrapper (Owned.ptr k)) + (l.blocks + pairBlocks q k v)) =
      l.arrays + (slotBlocks l.slots + s.blocks + pt q (.pair ⟨Owned.ptr k, Owned.ptr v⟩)) := by
    simp only [s, Layout.blocks, pairBlocks, Slot.blocks, Slot.wrappers, Slot.data]
    abel
  by_cases hfull : l.kt = []
  · rw [if_pos (by simp [Layout.record, Layout.capacity, hfull])]
    -- full arrays double, unless twice the capacity is no `int`: then the two new wrappers are freed
    by_cases h30 : 2 ^ 30 ≤ l.capacity
    · have hm : SimpleMap.doubledCapacity (l.capacity : Int) = none :=
        SimpleMap.doubledCapacity_none (by omega) (by omega)
      refine Linear.read (doubleArrays_reads hsm' hm) ?_
      rw [if_pos Option.isNone_none]
      refine Linear.free (pt vw (.wrapper (Owned.ptr v)) + (l.blocks + pairBlocks q k v)) (by abel) ?_
      exact Linear.free _ rfl (Linear.ret (.inl ⟨⟨hfull, h30⟩, rfl, rfl⟩))
    · have hlen : l.slots.length < 2 ^ 30 := by
        simp only [Layout.capacity, not_le] at h30
        omega
      refine Linear.call (Layout.double_linear hlen hfull) _ hblocks ?_
      rintro _ _ ⟨rfl, l', hsm₁, hslots, hroom, hcap', rfl⟩
      rw [if_neg (by simp), ← hsm₁, ← hslots]
      refine (push_slot hroom s q).conseq ?_
      rintro _ _ ⟨rfl, l₁, hsm₂, hes, hcap₁, rfl⟩
      refine .inr ⟨fun h => h30 h.2, rfl, l₁, hsm₂, ?_, ?_, rfl⟩
      · rw [hes, Layout.entries, hslots]
        rfl
      · rw [hcap₁, hcap', Layout.grown, if_pos hfull]
  · have hlen : l.kt.length ≠ 0 := fun h => hfull (List.eq_nil_of_length_eq_zero h)
    rw [if_neg (by simp [Layout.record, Layout.capacity, hlen])]
    refine Linear.of_eq hblocks ((push_slot hfull s q).conseq ?_)
    rintro _ _ ⟨rfl, l₁, hsm₁, hes, hcap₁, rfl⟩
    refine .inr ⟨fun h => hfull h.1, rfl, l₁, hsm₁, hes, ?_, rfl⟩
    rw [hcap₁, Layout.grown, if_neg hfull]

/-- `__upgrade` at the slot `s`. -/
theorem upgrade_linear {pre suf : List (Slot κ ν)} {s : Slot κ ν} (hl : l.slots = pre ++ s :: suf)
    (q : Nat) (k : κ) (v : ν) :
    Linear (l.blocks + pairBlocks q k v) (upgrade (some l.sm) pre.length (some q)) fun p C =>
      p = some q ∧ ∃ l' : Layout κ ν, l'.sm = l.sm ∧
        l'.slots = pre ++ ⟨s.kw, s.vw, k, v⟩ :: suf ∧ l'.capacity = l.capacity ∧
          C = l'.blocks + pairBlocks q s.key s.value := by
  let kvp : KeyValuePair Ptr Ptr := ⟨Owned.ptr k, Owned.ptr v⟩
  let data : Multiset (Nat × Obj δ) := Owned.blocks k + Owned.blocks v
  have hs : s ∈ l.slots := by simp [hl]
  have hsub : ∀ x ∈ l.blocks, x ∈ l.blocks + (pt q (.pair kvp) + data) :=
    fun x hx => Multiset.mem_add.mpr (.inl hx)
  have hi : l.slots[pre.length]? = some s := by simp [hl]
  have hle : decide ((pre.length : Int) > l.record.top) = false := by
    apply decide_eq_false
    simp only [Layout.record, hl, List.length_append, List.length_cons]
    omega
  unfold upgrade
  rw [if_neg (by simp)]
  refine Linear.read (simpleMapAt_reads (hsub _ l.sm_mem)) ?_
  have hq : (q, .pair kvp) ∈ l.blocks + (pt q (.pair kvp) + data) := by simp
  refine Linear.of_eq (C := l.blocks + (pt q (.pair kvp) + data)) rfl ?_
  refine Linear.read (pairAt_reads hq) ?_
  rw [if_neg (by rw [hle]; simp [Layout.record, kvp, Owned.ptr])]
  refine Linear.read (slotAt_reads (hsub _ l.values_mem) (slot_wrapperSlots_of Slot.vw hi l.vt)) ?_
  refine Linear.read (wrapperAt_reads (hsub _ (Layout.slot_subset hs (vw_mem s)))) ?_
  refine Linear.read (slotAt_reads (hsub _ l.keys_mem) (slot_wrapperSlots_of Slot.kw hi l.kt)) ?_
  refine Linear.read (wrapperAt_reads (hsub _ (Layout.slot_subset hs (kw_mem s)))) ?_
  let others : Multiset (Nat × Obj δ) := l.arrays + (slotBlocks pre + slotBlocks suf) + (s.data + data)
  have hblocks : l.blocks + (pt q (.pair kvp) + data) = pt s.vw (.wrapper (Owned.ptr s.value)) +
      (pt s.kw (.wrapper (Owned.ptr s.key)) + pt q (.pair kvp) + others) := by
    rw [Layout.blocks, hl, slotBlocks_append, slotBlocks_cons, Slot.blocks, Slot.wrappers]
    simp only [others]
    abel
  refine Linear.store _ _ hblocks ?_
  refine Linear.store (pt s.vw (.wrapper (Owned.ptr v)) + pt q (.pair kvp) + others) _ (by abel) ?_
  refine Linear.store (pt s.vw (.wrapper (Owned.ptr v)) + pt s.kw (.wrapper (Owned.ptr k)) + others) _
    (by abel) ?_
  let l' : Layout κ ν := { l with
    slots := pre ++ ⟨s.kw, s.vw, k, v⟩ :: suf
    pos := by rw [List.length_append, List.length_cons]; omega }
  have harrays : (l'.arrays : Multiset (Nat × Obj δ)) = l.arrays := by
    simp [l', Layout.arrays, Layout.capacity, wrapperSlots, hl]
  refine Linear.ret ⟨rfl, l', rfl, rfl, by simp [l', Layout.capacity, hl], ?_⟩
  rw [Layout.blocks, harrays, slotBlocks_append, slotBlocks_cons, Slot.blocks, Slot.wrappers]
  simp only [others, data, Slot.data, pairBlocks]
  abel

section Entries

variable {id : κ → ι} {cmp : CmpFptr δ} {k : κ} {v : ν}

theorem subset_blocks_add (l : Layout κ ν) (D : Multiset (Nat × Obj δ)) :
    l.blocks ⊆ l.blocks + D := fun _ hx => Multiset.mem_add.mpr (.inl hx)

/-- `set` of a key that is not there. -/
theorem set_absent (hcmp : Compares cmp id) (hc : l.capacity < 2 ^ 31) (q : Nat) (v : ν)
    (ha : Keyed.lookup (SimpleMap.ident id) l.entries (id k) = none) :
    Linear (l.blocks + pairBlocks q k v) (set .ok (some l.sm) (some q) cmp) fun r C =>
      (l.Stuck ∧ r = .errorSetSmRtn ∧ C = l.blocks + pairBlocks q k v) ∨
        (¬ l.Stuck ∧ r = .sucessSet ∧ ∃ l' : Layout κ ν, l'.sm = l.sm ∧
          l'.entries = Keyed.put (SimpleMap.ident id) l.entries (k, v) ∧ l'.capacity = l.grown ∧
            C = l'.blocks + pt q (.pair ⟨Owned.ptr k, Owned.ptr v⟩)) := by
  have hput : Keyed.put (SimpleMap.ident id) l.entries (k, v) = l.entries ++ [(k, v)] :=
    Keyed.put_absent ha
  have hq := Multiset.mem_add.mpr (.inr (pair_mem q k v) : _ ∈ l.blocks ∨ _)
  have hk : Owned.blocks k ⊆ l.blocks + pairBlocks q k v :=
    fun x hx => Multiset.mem_add.mpr (.inr (subset_pairBlocks q k v hx))
  rw [hput]
  unfold set
  rw [if_neg (by simp)]
  refine Linear.read (pairAt_reads hq) ?_
  rw [if_neg (by simp [Owned.ptr])]
  refine Linear.read (find_absent hcmp (subset_blocks_add l _) hk ha) ?_
  refine Linear.bind (setNew_linear hc q k v) ?_
  rintro _ _ (⟨hst, rfl, rfl⟩ | ⟨hst, rfl, hl'⟩)
  · exact Linear.ret (.inl ⟨hst, rfl, rfl⟩)
  · exact Linear.ret (.inr ⟨hst, rfl, hl'⟩)

/-- `set` of a key that is there. -/
theorem set_present (hcmp : Compares cmp id) (q : Nat) (v : ν) {e : κ × ν}
    (he : Keyed.lookup (SimpleMap.ident id) l.entries (id k) = some e) :
    Linear (l.blocks + pairBlocks q k v) (set .ok (some l.sm) (some q) cmp) fun r C =>
      r = .sucessUpgrade ∧ ∃ l' : Layout κ ν, l'.sm = l.sm ∧
        l'.entries = Keyed.put (SimpleMap.ident id) l.entries (k, v) ∧ l'.capacity = l.capacity ∧
          C = l'.blocks + pairBlocks q e.1 e.2 := by
  have hq := Multiset.mem_add.mpr (.inr (pair_mem q k v) : _ ∈ l.blocks ∨ _)
  have hk : Owned.blocks k ⊆ l.blocks + pairBlocks q k v :=
    fun x hx => Multiset.mem_add.mpr (.inr (subset_pairBlocks q k v hx))
  obtain ⟨pre, s, suf, hslots, rfl, -, -, hpos⟩ := split_of_lookup he
  have hput : Keyed.put (SimpleMap.ident id) l.entries (k, v) = l.entries.set pre.length (k, v) := by
    rw [Keyed.put, show SimpleMap.ident id (k, v) = id k from rfl, Layout.entries, hpos]
  unfold set
  rw [if_neg (by simp)]
  refine Linear.read (pairAt_reads hq) ?_
  rw [if_neg (by simp [Owned.ptr])]
  refine Linear.read (find_present hcmp (subset_blocks_add l _) hk hpos) ?_
  refine Linear.bind (upgrade_linear hslots q k v) ?_
  rintro _ _ ⟨rfl, l', hsm, hslots', hcap, rfl⟩
  refine Linear.ret ⟨rfl, l', hsm, ?_, hcap, rfl⟩
  rw [hput, Layout.entries, Layout.entries, hslots', hslots]
  simp [Slot.entry]

end Entries
end Set

/-! ## `remove_key` -/

section Remove

variable {l : Layout κ ν} {id : κ → ι} {cmp : CmpFptr δ} {k : κ}

omit [Owned κ δ] [Owned ν δ] in
theorem wrapperSlots_snoc (f : Slot κ ν → Nat) (pre : List (Slot κ ν)) (s : Slot κ ν)
    (t : List (Option Ptr)) :
    wrapperSlots f pre (some (some (f s)) :: t) = wrapperSlots f (pre ++ [s]) t := by
  simp [wrapperSlots]

omit [Owned κ δ] [Owned ν δ] in
theorem slot_middle (f : Slot κ ν → Nat) (pre : List (Slot κ ν)) (x y : Option Ptr)
    (t : List (Option Ptr)) :
    SimpleMap.slot (wrapperSlots f pre (x :: y :: t)) (pre.length + 1) = y := by
  simp [wrapperSlots, SimpleMap.slot]

omit [Owned κ δ] [Owned ν δ] in
theorem set_middle (f : Slot κ ν → Nat) (pre : List (Slot κ ν)) (x y : Option Ptr)
    (t : List (Option Ptr)) :
    (wrapperSlots f pre (x :: t)).set pre.length y = wrapperSlots f pre (y :: t) := by
  simp [wrapperSlots]

omit [Owned κ δ] [Owned ν δ] in
/-- The shift over the slots after one that goes away. -/
theorem shiftLeft_linear {keys values : Nat} (pre suf : List (Slot κ ν)) (x y : Option Ptr)
    (kt vt : List (Option Ptr)) :
    Linear (pt keys (.slots (wrapperSlots Slot.kw pre (x :: wrapperSlots Slot.kw suf kt))) +
        pt values (.slots (wrapperSlots Slot.vw pre (y :: wrapperSlots Slot.vw suf vt))))
      (shiftLeft (some keys) (some values) suf.length pre.length : HeapM (Obj δ) Unit)
      fun _ C => C = pt keys (.slots (wrapperSlots Slot.kw (pre ++ suf) (some none :: kt))) +
        pt values (.slots (wrapperSlots Slot.vw (pre ++ suf) (some none :: vt))) := by
  -- the slots before the gap are `pre`; what is in the gap is overwritten
  induction suf generalizing pre x y with
  | nil =>
    refine Linear.call (setSlot_linear (by simp) none) _ rfl ?_
    rintro _ _ rfl
    refine Linear.last (setSlot_linear (by simp) none) _ (add_comm _ _) ?_
    rintro _ _ rfl
    rw [set_middle, set_middle, List.append_nil, add_comm]
    rfl
  | cons s suf ih =>
    have hk : wrapperSlots Slot.kw (s :: suf) kt = some (some s.kw) :: wrapperSlots Slot.kw suf kt := rfl
    have hv : wrapperSlots Slot.vw (s :: suf) vt = some (some s.vw) :: wrapperSlots Slot.vw suf vt := rfl
    rw [hk, hv]
    refine Linear.read (slotAt_reads (Multiset.mem_add.mpr (.inl (mem_pt.mpr rfl)))
      (slot_middle Slot.kw pre x _ _)) ?_
    refine Linear.call (setSlot_linear (by simp) (some s.kw)) _ rfl ?_
    rintro _ _ rfl
    refine Linear.read (slotAt_reads (Multiset.mem_add.mpr (.inr (mem_pt.mpr rfl)))
      (slot_middle Slot.vw pre y _ _)) ?_
    refine Linear.call (setSlot_linear (by simp) (some s.vw)) _ (add_comm _ _) ?_
    rintro _ _ rfl
    rw [set_middle, set_middle, add_comm, wrapperSlots_snoc Slot.kw pre s,
      wrapperSlots_snoc Slot.vw pre s]
    have ih := ih (pre ++ [s]) (some (some s.kw)) (some (some s.vw))
    rw [List.length_append, List.length_singleton, List.append_assoc, List.singleton_append] at ih
    exact ih

/-- The search of `remove_key` finds `s`, after the slots `mid`. -/
theorem removeFrom_linear (hcmp : Compares cmp id) (pre : List (Slot κ ν))
    {mid post : List (Slot κ ν)} {s : Slot κ ν}
    (hl : l.slots = pre ++ mid ++ s :: post) (hmid : ∀ x ∈ mid, id x.key ≠ id k)
    (hs : id s.key = id k) :
    Linear (l.blocks + Owned.blocks k)
      (removeFrom cmp (some l.sm) (Owned.ptr k) l.record (mid.length + 1 + post.length) pre.length)
      fun r C => r = (.removeSuccess, some ⟨Owned.ptr s.key, Owned.ptr s.value⟩) ∧
        ∃ l' : Layout κ ν, l'.sm = l.sm ∧ l'.slots = pre ++ mid ++ post ∧
          l'.capacity = l.capacity ∧ C = l'.blocks + s.blocks + Owned.blocks k := by
  have hsub : ∀ x ∈ l.blocks, x ∈ l.blocks + Owned.blocks k :=
    fun x hx => Multiset.mem_add.mpr (.inl hx)
  induction mid generalizing pre with
  | nil =>
    -- `compare` finds the key here
    have hmem : s ∈ l.slots := by simp [hl]
    have hi : l.slots[pre.length]? = some s := by simp [hl]
    obtain ⟨p, hread, hp⟩ := hcmp k s.key
    have hsub' : Owned.blocks k + Owned.blocks s.key ⊆ l.blocks + Owned.blocks k := by
      intro x hx
      rcases Multiset.mem_add.mp hx with hx | hx
      · exact Multiset.mem_add.mpr (.inr hx)
      · exact hsub x (Layout.slot_subset hmem (key_subset s hx))
    rw [List.length_nil, Nat.zero_add, Nat.add_comm]
    refine Linear.read (slotAt_reads (hsub _ l.keys_mem) (slot_wrapperSlots_of Slot.kw hi l.kt)) ?_
    rw [if_neg (by simp)]
    refine Linear.read (wrapperAt_reads (hsub _ (Layout.slot_subset hmem (kw_mem s)))) ?_
    refine Linear.read (hread.mono hsub') ?_
    have hfound : p.isNone = false := by
      rw [SimpleMap.cmpBy, hs] at hp
      simpa using hp
    rw [if_neg (by simp [hfound])]
    refine Linear.read (slotAt_reads (hsub _ l.values_mem) (slot_wrapperSlots_of Slot.vw hi l.vt)) ?_
    refine Linear.read (wrapperAt_reads (hsub _ (Layout.slot_subset hmem (vw_mem s)))) ?_
    have hw : ∀ (f : Slot κ ν → Nat) (t : List (Option Ptr)), wrapperSlots f l.slots t =
        wrapperSlots f pre (some (some (f s)) :: wrapperSlots f post t) := by
      intro f t
      simp [wrapperSlots, hl]
    -- the shift needs the two arrays only; the wrappers and the nodes of `s` stay where they are
    let data : Multiset (Nat × Obj δ) := slotBlocks l.slots + Owned.blocks k
    refine Linear.call (shiftLeft_linear pre post (some (some s.kw)) (some (some s.vw)) l.kt l.vt)
      (pt l.sm (.simpleMap l.record) + data) ?_ ?_
    · rw [← hw, ← hw, Layout.blocks, Layout.arrays, arrayBlocks]
      simp only [data, Layout.record]
      abel
    rintro _ _ rfl
    refine Linear.store (pt l.keys (.slots (wrapperSlots Slot.kw (pre ++ post) (some none :: l.kt))) +
      pt l.values (.slots (wrapperSlots Slot.vw (pre ++ post) (some none :: l.vt))) + data) _
      (by abel) ?_
    let l' : Layout κ ν := { l with
      slots := pre ++ post
      kt := some none :: l.kt
      vt := some none :: l.vt
      same := by simp [l.same]
      pos := by rw [List.length_cons]; omega }
    have hlen : l.slots.length = (pre ++ post).length + 1 := by
      simp only [hl, List.length_append, List.length_cons, List.length_nil]
      omega
    have hcap : l'.capacity = l.capacity := by
      simp only [l', Layout.capacity, hlen, List.length_cons]
      omega
    -- one slot less and one free place more: the capacity is the same
    refine Linear.ret ⟨rfl, l', rfl, by simp [l'], hcap, ?_⟩
    have hrec : ({ l.record with top := l.record.top - 1 } : SimpleMap) = l'.record := by
      have htop : l.record.top - 1 = l'.record.top := by
        simp only [l', Layout.record, hlen]
        omega
      rw [htop, Layout.record, Layout.record, hcap]
    have hblocks : (l'.blocks : Multiset (Nat × Obj δ)) = pt l.sm (.simpleMap l'.record) +
        (pt l.keys (.slots (wrapperSlots Slot.kw (pre ++ post) (some none :: l.kt))) +
          pt l.values (.slots (wrapperSlots Slot.vw (pre ++ post) (some none :: l.vt)))) +
        slotBlocks (pre ++ post) := rfl
    rw [hrec, hblocks]
    simp only [data, hl, List.append_nil, slotBlocks_append, slotBlocks_cons]
    abel
  | cons x mid ih =>
    have hmem : x ∈ l.slots := by simp [hl]
    have hi : l.slots[pre.length]? = some x := by simp [hl]
    obtain ⟨p, hread, hp⟩ := hcmp k x.key
    have hsub' : Owned.blocks k + Owned.blocks x.key ⊆ l.blocks + Owned.blocks k := by
      intro y hy
      rcases Multiset.mem_add.mp hy with hy | hy
      · exact Multiset.mem_add.mpr (.inr hy)
      · exact hsub y (Layout.slot_subset hmem (key_subset x hy))
    have hne : id k ≠ id x.key := Ne.symm (hmid x List.mem_cons_self)
    have hlen : (x :: mid).length + 1 + post.length = (mid.length + 1 + post.length) + 1 := by
      simp
      omega
    rw [hlen]
    refine Linear.read (slotAt_reads (hsub _ l.keys_mem) (slot_wrapperSlots_of Slot.kw hi l.kt)) ?_
    rw [if_neg (by simp)]
    refine Linear.read (wrapperAt_reads (hsub _ (Layout.slot_subset hmem (kw_mem x)))) ?_
    refine Linear.read (hread.mono hsub') ?_
    have hnot : p.isNone = true := by
      simpa [SimpleMap.cmpBy, hne] using hp
    rw [if_pos hnot]
    have ih := ih (pre ++ [x]) (by simp [hl]) fun y hy => hmid y (List.mem_cons_of_mem _ hy)
    simp only [List.length_append, List.length_singleton, List.append_assoc, List.cons_append,
      List.nil_append] at ih ⊢
    exact ih

/-- `remove_key` of a key that is there. The two wrappers of the slot, `W`, are left. -/
theorem removeKey_present (hcmp : Compares cmp id) {e : κ × ν}
    (he : Keyed.lookup (SimpleMap.ident id) l.entries (id k) = some e) :
    Linear (l.blocks + Owned.blocks k) (removeKey (some l.sm) (Owned.ptr k) cmp) fun r C =>
      r = (.removeSuccess, some ⟨Owned.ptr e.1, Owned.ptr e.2⟩) ∧
        ∃ (l' : Layout κ ν) (W : Multiset (Nat × Obj δ)), l'.sm = l.sm ∧
          l'.entries = Keyed.remove (SimpleMap.ident id) l.entries (id k) ∧
          l'.capacity = l.capacity ∧ W.card = 2 ∧
            C = l'.blocks + W + (Owned.blocks e.1 + Owned.blocks e.2) + Owned.blocks k := by
  obtain ⟨pre, s, suf, hslots, rfl, hid, hpre, hpos⟩ := split_of_lookup he
  have hsm : (l.sm, .simpleMap l.record) ∈ l.blocks + Owned.blocks k :=
    Multiset.mem_add.mpr (.inl l.sm_mem)
  have htop : (l.record.top + 1).toNat = pre.length + 1 + suf.length := by
    simp only [Layout.record, hslots, List.length_append, List.length_cons]
    omega
  unfold removeKey
  rw [if_neg (by simp [Owned.ptr])]
  refine Linear.read (simpleMapAt_reads hsm) ?_
  rw [if_neg (by simp [Layout.record]), htop]
  refine (removeFrom_linear hcmp [] hslots hpre hid).conseq ?_
  rintro _ _ ⟨rfl, l', hsm', hslots', hcap, rfl⟩
  refine ⟨rfl, l', s.wrappers, hsm', ?_, hcap, by simp [Slot.wrappers], ?_⟩
  · have hrem : Keyed.remove (SimpleMap.ident id) l.entries (id k) = l.entries.eraseIdx pre.length := by
      rw [Keyed.remove, Layout.entries, hpos]
    rw [hrem, Layout.entries, Layout.entries, hslots', hslots]
    simp [List.eraseIdx_append_of_length_le]
  · rw [Slot.blocks, Slot.data, Slot.entry]
    abel

end Remove

/-! ## `create_simple_map` and `delete_map` -/

theorem createSimpleMap_linear :
    Linear 0 (createSimpleMap : HeapM (Obj δ) Ptr) fun p C =>
      ∃ l : Layout κ ν, p = some l.sm ∧ l.slots = [] ∧ l.capacity = 1 ∧ C = l.blocks := by
  unfold createSimpleMap
  refine Linear.alloc _ fun sm => ?_
  refine Linear.alloc _ fun keys => ?_
  refine Linear.alloc _ fun values => ?_
  refine Linear.store (pt keys (.slots [some none]) + pt values (.slots [some none])) _ (by abel) ?_
  let l : Layout κ ν := ⟨sm, keys, values, [], [some none], [some none], rfl, Nat.one_pos⟩
  refine Linear.ret ⟨l, rfl, rfl, rfl, ?_⟩
  exact (add_zero (l.arrays : Multiset (Nat × Obj δ))).symm

section Delete

variable {cleanUp : Ptr → Ptr → HeapM (Obj δ) Unit}

theorem deleteFrom_linear
    (hclean : ∀ (k : κ) (v : ν), Linear (Owned.blocks k + Owned.blocks v)
      (cleanUp (Owned.ptr k) (Owned.ptr v)) fun _ C => C = 0)
    {keys values : Nat} (pre : List (Slot κ ν)) {suf : List (Slot κ ν)} {kt vt : List (Option Ptr)}
    {A : Multiset (Nat × Obj δ)} (hk : (keys, .slots (wrapperSlots Slot.kw (pre ++ suf) kt)) ∈ A)
    (hv : (values, .slots (wrapperSlots Slot.vw (pre ++ suf) vt)) ∈ A) :
    Linear (A + slotBlocks suf) (deleteFrom cleanUp (some keys) (some values) suf.length pre.length)
      fun _ C => C = A := by
  induction suf generalizing pre with
  | nil => exact Linear.ret (add_zero A)
  | cons s suf ih =>
    have hsub : ∀ x ∈ A, x ∈ A + slotBlocks (s :: suf) := fun x hx => Multiset.mem_add.mpr (.inl hx)
    have hs : ∀ x ∈ s.blocks, x ∈ A + slotBlocks (s :: suf) := by
      intro x hx
      simp [hx]
    refine Linear.read (slotAt_reads (hsub _ hk) (slot_wrapperSlots Slot.kw pre suf s kt)) ?_
    refine Linear.read (slotAt_reads (hsub _ hv) (slot_wrapperSlots Slot.vw pre suf s vt)) ?_
    rw [if_neg (by simp)]
    refine Linear.read (wrapperAt_reads (hs _ (kw_mem s))) ?_
    refine Linear.read (wrapperAt_reads (hs _ (vw_mem s))) ?_
    refine Linear.call (hclean s.key s.value) (A + s.wrappers + slotBlocks suf) ?_ ?_
    · rw [slotBlocks_cons, Slot.blocks, Slot.data]
      abel
    rintro _ _ rfl
    refine Linear.free (pt s.vw (.wrapper (Owned.ptr s.value)) + (A + slotBlocks suf))
      (by rw [Slot.wrappers]; abel) ?_
    refine Linear.free _ rfl ?_
    have ih := ih (pre ++ [s]) (by simpa using hk) (by simpa using hv)
    rw [List.length_append, List.length_singleton] at ih
    exact ih

/-- `delete_map`, with a callback that frees a key and its value. -/
theorem deleteMap_linear (l : Layout κ ν)
    (hclean : ∀ (k : κ) (v : ν), Linear (Owned.blocks k + Owned.blocks v)
      (cleanUp (Owned.ptr k) (Owned.ptr v)) fun _ C => C = 0) :
    Linear l.blocks (deleteMap (some l.sm) cleanUp) fun r C => r = true ∧ C = 0 := by
  have htop : (l.record.top + 1).toNat = l.slots.length := by
    simp [Layout.record]
  unfold deleteMap
  rw [if_neg (by simp)]
  refine Linear.read (simpleMapAt_reads l.sm_mem) ?_
  rw [if_neg (by simp [Layout.record]), htop]
  have hloop : Linear l.blocks (deleteFrom cleanUp (some l.keys) (some l.values) l.slots.length 0)
      fun _ C => C = l.arrays :=
    deleteFrom_linear hclean [] l.keys_mem_arrays l.values_mem_arrays
  refine Linear.bind hloop ?_
  rintro _ _ rfl
  let record : Multiset (Nat × Obj δ) := pt l.sm (.simpleMap l.record)
  have harrays : (l.arrays : Multiset (Nat × Obj δ)) = record +
      (pt l.keys (.slots (wrapperSlots Slot.kw l.slots l.kt)) +
        pt l.values (.slots (wrapperSlots Slot.vw l.slots l.vt))) := rfl
  refine Linear.free (record + pt l.values (.slots (wrapperSlots Slot.vw l.slots l.vt)))
    (by rw [harrays]; abel) ?_
  refine Linear.free record (by abel) ?_
  refine Linear.free 0 (add_zero _).symm ?_
  exact Linear.ret ⟨rfl, rfl⟩

end Delete
end InMemory
end RedisImpl
