import RedisImpl.Cmd.NodeBlocks
import RedisImpl.Cmd.Reference

/-!
# What GET and SET leave in memory

`Models l sm`: the blocks `l` are those of the store `sm` of `Cmd/Execute.lean`. A command of
`Cmd/InMemory.lean` answers as there, leaves a map that models the store after it, and some blocks
that nothing points to any more: as many as `leaksGet` and `leaksSet` say (`handleGetCmd_leaves`,
`handleSetCmd_leaves`).
-/

namespace RedisImpl
namespace InMemory

open Heap

/-- The nodes of an entry. -/
def nodes (e : KeyLay × ValueLay) : RedisImpl.KeyNode × RedisImpl.ValueNode := (e.1.val, e.2.val)

/-- The blocks of the map are those of the store. -/
structure Models (l : Layout KeyLay ValueLay) (sm : Store) : Prop where
  stores : SimpleMap.Stores RedisImpl.KeyNode.id sm (l.entries.map nodes)
  capacity : sm.capacity = l.capacity
  bound : l.capacity < 2 ^ 31

/-- A reply in memory: NULL, or a string. -/
inductive ReplyAt : Option Bytes → Ptr → Multiset (Nat × Obj Datum) → Prop
  | null : ReplyAt none none 0
  | str (a : Nat) (s : Bytes) : ReplyAt (some s) (some a) (strBlock a s)

/-- After a command with the reply and the store `r`: the map is at `a`, the reply at `p`, and there
are `n` blocks that nothing points to. -/
def Leaves (a : Nat) (r : Option Bytes × Store) (n : Nat) (p : Ptr)
    (C : Multiset (Nat × Obj Datum)) : Prop :=
  ∃ (l : Layout KeyLay ValueLay) (G S : Multiset (Nat × Obj Datum)), l.sm = a ∧ Models l r.2 ∧
    G.card = n ∧ ReplyAt r.1 p S ∧ C = l.blocks + G + S

/-- What `set` leaves where it finds `old` and returns and changes `r`. The pair at `q` holds the new
nodes, or the ones that were replaced. -/
inductive SetDone (a q : Nat) (k : KeyLay) (v : ValueLay) :
    Option (KeyValuePair RedisImpl.KeyNode RedisImpl.ValueNode) →
      SetRtn × Store × KeyValuePair RedisImpl.KeyNode RedisImpl.ValueNode → SetRtn →
      Multiset (Nat × Obj Datum) → Prop
  | failed (l : Layout KeyLay ValueLay) (sm : Store) : l.sm = a → Models l sm →
    SetDone a q k v none (.errorSetSmRtn, sm, ⟨k.val, v.val⟩) .errorSetSmRtn
      (l.blocks + pairBlocks q k v)
  | new (l : Layout KeyLay ValueLay) (sm : Store) : l.sm = a → Models l sm →
    SetDone a q k v none (.sucessSet, sm, ⟨k.val, v.val⟩) .sucessSet
      (l.blocks + pt q (.pair ⟨Owned.ptr k, Owned.ptr v⟩))
  | replaced (l : Layout KeyLay ValueLay) (sm : Store) (k' : KeyLay) (v' : ValueLay) : l.sm = a →
    Models l sm → SetDone a q k v (some ⟨k'.val, v'.val⟩) (.sucessUpgrade, sm, ⟨k'.val, v'.val⟩)
      .sucessUpgrade (l.blocks + pairBlocks q k' v')

/-! ## The map -/

section Map

variable {l : Layout KeyLay ValueLay} {sm : Store} {B : Multiset (Nat × Obj Datum)}

theorem Models.lookup (l : Layout KeyLay ValueLay) (k : Bytes) :
    Keyed.lookup (SimpleMap.ident RedisImpl.KeyNode.id) (l.entries.map nodes) k =
      (Keyed.lookup (SimpleMap.ident KeyLay.id) l.entries k).map nodes := Keyed.lookup_map

theorem Models.put (l : Layout KeyLay ValueLay) (e : KeyLay × ValueLay) :
    Keyed.put (SimpleMap.ident RedisImpl.KeyNode.id) (l.entries.map nodes) (nodes e) =
      (Keyed.put (SimpleMap.ident KeyLay.id) l.entries e).map nodes := Keyed.put_map

theorem Models.remove (l : Layout KeyLay ValueLay) (k : Bytes) :
    Keyed.remove (SimpleMap.ident RedisImpl.KeyNode.id) (l.entries.map nodes) k =
      (Keyed.remove (SimpleMap.ident KeyLay.id) l.entries k).map nodes := Keyed.remove_map

theorem Models.get (h : Models l sm) (k : KeyLay) :
    sm.get k.val RedisImpl.compare =
      (Keyed.lookup (SimpleMap.ident KeyLay.id) l.entries k.id).map fun e => ⟨e.1.val, e.2.val⟩ := by
  rw [compare_eq_cmpBy, h.stores.get_eq, Models.lookup, Option.map_map]
  rfl

theorem Models.isFull (h : Models l sm) : sm.isFull = true ↔ l.kt = [] := by
  have htop := h.stores.top
  have hcap := h.capacity
  rw [List.length_map, Layout.length_entries] at htop
  simp only [SimpleMap.isFull, htop, hcap, Layout.capacity, decide_eq_true_eq]
  rw [← List.length_eq_zero_iff]
  omega

/-- `set` does what it does on the store. -/
theorem set_models (h : Models l sm) (q : Nat) (k : KeyLay) (v : ValueLay) :
    Linear (l.blocks + pairBlocks q k v) (set .ok (some l.sm) (some q) compare) fun r C =>
      SetDone l.sm q k v (sm.get k.val RedisImpl.compare)
        (sm.set .ok ⟨k.val, v.val⟩ RedisImpl.compare) r C := by
  rw [h.get, compare_eq_cmpBy]
  have hput := Models.put l (k, v)
  cases hlk : Keyed.lookup (SimpleMap.ident KeyLay.id) l.entries k.id with
  | some e =>
    have hl : Keyed.lookup (SimpleMap.ident RedisImpl.KeyNode.id) (l.entries.map nodes) k.id =
        some (nodes e) := by rw [Models.lookup, hlk]; rfl
    obtain ⟨sm', hset, hst, hcap⟩ := h.stores.set_upgrade .ok ⟨k.val, v.val⟩ hl
    rw [hset]
    refine (set_present compare_compares q v hlk).conseq ?_
    rintro _ _ ⟨rfl, l', hsm, hes, hcap', rfl⟩
    refine .replaced l' sm' e.1 e.2 hsm ⟨?_, ?_, ?_⟩
    · rw [hes]
      exact hput ▸ hst
    · rw [hcap, hcap', h.capacity]
    · rw [hcap']
      exact h.bound
  | none =>
    have ha : Keyed.lookup (SimpleMap.ident RedisImpl.KeyNode.id) (l.entries.map nodes) k.id = none := by
      rw [Models.lookup, hlk]
      rfl
    refine (set_absent compare_compares h.bound q v hlk).conseq ?_
    rintro _ _ (⟨hstuck, rfl, rfl⟩ | ⟨hfree, rfl, l', hsm, hes, hcap', rfl⟩)
    · -- both maps are full with `2^30` keys, and neither can double
      have hfull := h.isFull.mpr hstuck.1
      have hlen : ¬ (l.entries.map nodes).length < 2 ^ 30 := by
        have h30 := hstuck.2
        simp only [Layout.capacity, hstuck.1, List.length_nil] at h30
        rw [List.length_map, Layout.length_entries]
        omega
      have hcap : sm.capacity < 2 ^ 31 := by
        have := h.bound
        rw [h.capacity]
        omega
      rw [h.stores.set_full hfull hlen hcap ⟨k.val, v.val⟩ ha]
      exact .failed l sm rfl h
    · have hroom : sm.isFull = true → (l.entries.map nodes).length < 2 ^ 30 := by
        intro hfull
        have h30 : ¬ 2 ^ 30 ≤ l.capacity := fun h30 => hfree ⟨h.isFull.mp hfull, h30⟩
        rw [List.length_map, Layout.length_entries]
        simp only [Layout.capacity] at h30
        omega
      have hgrown := h.stores.capacity_set hroom ⟨k.val, v.val⟩ ha
      obtain ⟨sm', hset, hst, -⟩ := h.stores.set_new hroom ⟨k.val, v.val⟩ ha
      rw [hset] at hgrown ⊢
      refine .new l' sm' hsm ⟨?_, ?_, ?_⟩
      · rw [hes, Keyed.put_absent hlk]
        simpa [nodes] using hst
      · -- the capacity doubles in the one exactly if it doubles in the other
        rw [hcap', hgrown, Layout.grown, h.capacity]
        by_cases hfull : l.kt = []
        · rw [if_pos (h.isFull.mpr hfull), if_pos hfull]
          omega
        · rw [if_neg fun hf => hfull (h.isFull.mp hf), if_neg hfull]
      · rw [hcap', Layout.grown]
        by_cases hfull : l.kt = []
        · have h30 : ¬ 2 ^ 30 ≤ l.capacity := fun h30 => hfree ⟨hfull, h30⟩
          rw [if_pos hfull]
          omega
        · rw [if_neg hfull]
          exact h.bound

theorem Models.check (h : Models l sm) : RedisImpl.executeSetCheck sm = true :=
  executeSetCheck_stores h.stores

end Map

/-! ## Pieces of the commands -/

section Pieces

variable {β : Type} {R : β → Multiset (Nat × Obj Datum) → Prop} {B : Multiset (Nat × Obj Datum)}

theorem cpyStr_then {g : Ptr → Mem β} (s : Bytes)
    (hg : ∀ a, Linear (strBlock a s + B) (g (some a)) R) : Linear B (cpyStr s >>= g) R := by
  refine Linear.call (cpyStr_linear s) B (zero_add B).symm ?_
  rintro _ _ ⟨a, rfl, rfl⟩
  exact hg a

theorem freeStr_then {f : Unit → Mem β} (a : Nat) (s : Bytes) (D : Multiset (Nat × Obj Datum))
    (hB : B = strBlock a s + D) (hf : Linear D (f ()) R) :
    Linear B (HeapM.free (some a) >>= f) R := Linear.free D hB hf

/-- `clean_up_kv(kvp->key, kvp->value)` and then `free(kvp)`. -/
theorem discard_then {f : Unit → Mem β} (q : Nat) (k : KeyLay) (v : ValueLay)
    (D : Multiset (Nat × Obj Datum)) (hB : B = pairBlocks q k v + D)
    (hf : Linear D (f ()) R) :
    Linear B (cleanUpPair (some q) >>= fun _ => HeapM.free (some q) >>= f) R := by
  refine Linear.call (cleanUpPair_linear q k v) D hB ?_
  rintro _ _ rfl
  exact Linear.free D rfl hf

end Pieces

/-! ## The executors -/

section Executors

variable {l : Layout KeyLay ValueLay} {sm : Store} {q : Nat} {k : KeyLay} {v : ValueLay}

theorem card_key (k : KeyLay) : (Owned.blocks k).card = 3 := by
  simp [Owned.blocks, strBlock]

theorem card_value (v : ValueLay) : (Owned.blocks v).card = 2 := by
  simp [Owned.blocks, strBlock]

/-- A map, the reply `s`, and the blocks `G`. -/
theorem leaves_str {l' : Layout KeyLay ValueLay} {sm' : Store} (hsm : l'.sm = l.sm)
    (h' : Models l' sm') (a : Nat) (s : Bytes) {G C : Multiset (Nat × Obj Datum)} {n : Nat}
    (hn : G.card = n) (hC : C = l'.blocks + G + strBlock a s) :
    Leaves l.sm (some s, sm') n (some a) C :=
  ⟨l', G, _, hsm, h', hn, .str a s, hC⟩

/-- A map and the blocks `G`, without a reply. -/
theorem leaves_null {l' : Layout KeyLay ValueLay} {sm' : Store} (hsm : l'.sm = l.sm)
    (h' : Models l' sm') {G C : Multiset (Nat × Obj Datum)} {n : Nat} (hn : G.card = n)
    (hC : C = l'.blocks + G) : Leaves l.sm (none, sm') n none C :=
  ⟨l', G, 0, hsm, h', hn, .null, by rw [hC, add_zero]⟩

/-- Nothing is done with the pair. -/
theorem leaves_pair (h : Models l sm) (q : Nat) (k : KeyLay) (v : ValueLay) :
    Linear (l.blocks + pairBlocks q k v) (pure none : Mem Ptr) (Leaves l.sm (none, sm) 6) := by
  refine Linear.ret (leaves_null rfl h ?_ rfl)
  rw [pairBlocks, Multiset.card_add, Multiset.card_add, card_pt, card_key, card_value]

theorem executeSetBasic_leaves (h : Models l sm) (q : Nat) (k : KeyLay) (v : ValueLay) :
    Linear (l.blocks + pairBlocks q k v) (executeSetBasic .ok (some l.sm) (some q))
      (Leaves l.sm (RedisImpl.executeSetBasic .ok sm ⟨k.val, v.val⟩) 0) := by
  have hcheck := executeSetCheck_reads (subset_blocks_add l (pairBlocks q k v))
    (fun x hx => Multiset.mem_add.mpr (.inr hx))
  unfold executeSetBasic RedisImpl.executeSetBasic
  rw [h.check]
  refine Linear.read hcheck ?_
  rw [if_neg (by simp), if_neg (by simp)]
  refine Linear.bind (set_models h q k v) ?_
  intro r C hdone
  generalize sm.get k.val RedisImpl.compare = old at hdone
  generalize sm.set .ok ⟨k.val, v.val⟩ RedisImpl.compare = res at hdone ⊢
  cases hdone with
  | failed l' sm' hsm h' =>
    refine callocChars_then _ fun a => ?_
    refine discard_then q k v (l'.blocks + strBlock a zeros) ?_ ?_
    · rw [List.nil_append, List.replicate_succ']
      show strBlock a zeros + _ = _
      abel
    exact Linear.ret (leaves_str hsm h' a zeros Multiset.card_zero (by abel))
  | new l' sm' hsm h' =>
    refine cpyStr_then ok fun a => ?_
    refine Linear.free (l'.blocks + strBlock a ok) (by abel) ?_
    exact Linear.ret (leaves_str hsm h' a ok Multiset.card_zero (by abel))
  | replaced l' sm' k' v' hsm h' =>
    refine Linear.call (cleanUpPair_linear q k' v') l'.blocks (add_comm _ _) ?_
    rintro _ _ rfl
    refine cpyStr_then ok fun a => ?_
    refine Linear.free (l'.blocks + strBlock a ok) (by abel) ?_
    exact Linear.ret (leaves_str hsm h' a ok Multiset.card_zero (by abel))

theorem executeSetGet_leaves (h : Models l sm) (q : Nat) (k : KeyLay) (v : ValueLay) :
    Linear (l.blocks + pairBlocks q k v) (executeSetGet .ok (some l.sm) (some q))
      (Leaves l.sm (RedisImpl.executeSetGet .ok sm ⟨k.val, v.val⟩) 0) := by
  have hcheck := executeSetCheck_reads (subset_blocks_add l (pairBlocks q k v))
    (fun x hx => Multiset.mem_add.mpr (.inr hx))
  unfold executeSetGet RedisImpl.executeSetGet
  rw [h.check]
  refine Linear.read hcheck ?_
  rw [if_neg (by simp), if_neg (by simp)]
  refine Linear.bind (set_models h q k v) ?_
  intro r C hdone
  generalize sm.get k.val RedisImpl.compare = old at hdone
  generalize sm.set .ok ⟨k.val, v.val⟩ RedisImpl.compare = res at hdone ⊢
  cases hdone with
  | failed l' sm' hsm h' =>
    refine discard_then q k v l'.blocks (add_comm _ _) ?_
    exact Linear.ret (leaves_null hsm h' Multiset.card_zero (add_zero _).symm)
  | new l' sm' hsm h' =>
    refine cpyStr_then nil fun a => ?_
    refine Linear.free (l'.blocks + strBlock a nil) (by abel) ?_
    exact Linear.ret (leaves_str hsm h' a nil Multiset.card_zero (by abel))
  | replaced l' sm' k' v' hsm h' =>
    have hpair : (q, .pair ⟨Owned.ptr k', Owned.ptr v'⟩) ∈ l'.blocks + pairBlocks q k' v' :=
      Multiset.mem_add.mpr (.inr (pair_mem q k' v'))
    have hv : Owned.blocks v' ⊆ l'.blocks + pairBlocks q k' v' := by
      intro x hx
      simp [pairBlocks, hx]
    -- the pair holds what it replaced: the reply is built from that, and then it is freed
    unfold replyOldValue
    refine Linear.read (pairAt_reads hpair) ?_
    rw [if_neg (by simp [Owned.ptr])]
    refine Linear.read (valueNodeAt_reads (hv (value_mem v'))) ?_
    rw [if_pos ⟨rfl, rfl⟩]
    refine Linear.bind (keyOrValueNodeToString_linear hv) ?_
    rintro _ _ ⟨a, rfl, rfl⟩
    refine discard_then q k' v' (l'.blocks + strBlock a (bulkString v'.bytes)) (by abel) ?_
    exact Linear.ret (leaves_str hsm h' a (bulkString v'.bytes) Multiset.card_zero (by abel))

theorem executeSetExPxExatPxat_leaves (h : Models l sm) (q : Nat) (k : KeyLay) (v : ValueLay)
    {slots : ParsedCmd} {option time : Bytes} (ho : slots.content 1 = some option)
    (ht : slots.content 0 = some time) (hw : (getOptionType option).isTime = true) :
    Linear (l.blocks + pairBlocks q k v) (executeSetExPxExatPxat .ok (some l.sm) (some q) slots)
      (Leaves l.sm (RedisImpl.executeSetExPxExatPxat .ok sm ⟨k.val, v.val⟩ slots) 0) := by
  have hcheck := executeSetCheck_reads (subset_blocks_add l (pairBlocks q k v))
    (fun x hx => Multiset.mem_add.mpr (.inr hx))
  have hpair : (q, .pair ⟨Owned.ptr k, Owned.ptr v⟩) ∈ l.blocks + pairBlocks q k v :=
    Multiset.mem_add.mpr (.inr (pair_mem q k v))
  have hkey : Owned.blocks k ⊆ l.blocks + pairBlocks q k v :=
    fun x hx => Multiset.mem_add.mpr (.inr (subset_pairBlocks q k v hx))
  -- the pair with another key node in the place of `k`
  have hstore : ∀ ex px, Linear (l.blocks + pairBlocks q k v) (do
      HeapM.store (Owned.ptr k) (.data (.keyNode ⟨some k.content, some k.time, ex, px,
        k.val.content.length⟩))
      executeSetBasic .ok (some l.sm) (some q))
      (Leaves l.sm (RedisImpl.executeSetBasic .ok sm
        ⟨{ k.val with ex := ex, px := px }, v.val⟩) 0) := by
    intro ex px
    let k' : KeyLay := { k with val := { k.val with ex := ex, px := px } }
    let rest : Multiset (Nat × Obj Datum) := l.blocks + pt q (.pair ⟨Owned.ptr k, Owned.ptr v⟩) +
      (strBlock k.content k.val.content + pt k.time (.data (.timespec k.val.inputTime))) +
      Owned.blocks v
    have hblocks : l.blocks + pairBlocks q k v = pt k.node (.data (.keyNode
        ⟨some k.content, some k.time, k.val.ex, k.val.px, k.val.content.length⟩)) + rest := by
      simp only [pairBlocks, Owned.blocks, rest]
      abel
    refine Linear.store rest _ hblocks (Linear.of_eq ?_ (executeSetBasic_leaves h q k' v))
    simp only [pairBlocks, Owned.blocks, rest, k', Owned.ptr, Owned.addr]
    abel
  unfold executeSetExPxExatPxat RedisImpl.executeSetExPxExatPxat
  rw [h.check]
  refine Linear.read hcheck ?_
  rw [if_neg (by simp), if_neg (by simp)]
  simp only [ho, ht]
  refine Linear.read (pairAt_reads hpair) ?_
  refine Linear.read (keyNodeAt_reads (hkey (key_mem k))) ?_
  -- EX and EXAT write `ex`, PX and PXAT write `px`
  rcases OptionType.isTime_iff.mp hw with hg | hg | hg | hg
  · rw [hg]
    exact hstore (stringToUint time) k.val.px
  · rw [hg]
    exact hstore k.val.ex (stringToUint time)
  · rw [hg]
    exact hstore (stringToUint time) k.val.px
  · rw [hg]
    exact hstore k.val.ex (stringToUint time)

/-- The blocks that `execute_set_nx_xx` leaves behind: the pair that `get` has built, and the nodes of
the key and the value if NX finds the map full. -/
def leaksNxXx (sm : Store) (kvp : KeyValuePair RedisImpl.KeyNode RedisImpl.ValueNode)
    (option : Bytes) : Nat :=
  if (sm.get kvp.key RedisImpl.compare).isSome then 1
  else if getOptionType option = .nx ∧ (sm.set .ok kvp RedisImpl.compare).1 = .errorSetSmRtn then 5
  else 0

/-- `get` in a handler: NULL where the store has no pair, otherwise a new pair. -/
theorem get_models (h : Models l sm) {B : Multiset (Nat × Obj Datum)} (hl : l.blocks ⊆ B)
    (hk : Owned.blocks k ⊆ B) :
    (sm.get k.val RedisImpl.compare = none ∧
      Reads B (get (some l.sm) (Owned.ptr k) compare) none) ∨
    ∃ (k' : KeyLay) (v' : ValueLay), (k', v') ∈ l.entries ∧
      sm.get k.val RedisImpl.compare = some ⟨k'.val, v'.val⟩ ∧
      Linear B (get (some l.sm) (Owned.ptr k) compare) fun kvp C =>
        ∃ a, kvp = some a ∧ C = pt a (.pair ⟨Owned.ptr k', Owned.ptr v'⟩) + B := by
  rw [h.get]
  cases hlk : Keyed.lookup (SimpleMap.ident KeyLay.id) l.entries k.id with
  | none => exact .inl ⟨rfl, get_absent compare_compares hl hk hlk⟩
  | some e =>
    exact .inr ⟨e.1, e.2, Keyed.mem_of_lookup hlk, rfl, get_present compare_compares hl hk hlk⟩

theorem executeNx_leaves (h : Models l sm) (q : Nat) (k : KeyLay) (v : ValueLay)
    (hget : sm.get k.val RedisImpl.compare = none) :
    Linear (l.blocks + pairBlocks q k v) (executeNx .ok (some l.sm) (some q) none)
      (Leaves l.sm
        (match sm.set .ok ⟨k.val, v.val⟩ RedisImpl.compare with
          | (.sucessSet, sm', _) => (some ok, sm')
          | (_, sm', _) => (some nil, sm'))
        (if (sm.set .ok ⟨k.val, v.val⟩ RedisImpl.compare).1 = .errorSetSmRtn then 5 else 0)) := by
  unfold executeNx
  rw [if_pos Option.isNone_none]
  refine Linear.bind (set_models h q k v) ?_
  intro r C hdone
  generalize sm.get k.val RedisImpl.compare = old at hdone hget
  generalize sm.set .ok ⟨k.val, v.val⟩ RedisImpl.compare = res at hdone ⊢
  cases hdone with
  | failed l' sm' hsm h' =>
    refine cpyStr_then nil fun a => ?_
    refine Linear.free (l'.blocks + (Owned.blocks k + Owned.blocks v) + strBlock a nil)
      (by rw [pairBlocks]; abel) ?_
    refine Linear.ret (leaves_str hsm h' a nil ?_ rfl)
    rw [Multiset.card_add, card_key, card_value]
    rfl
  | new l' sm' hsm h' =>
    refine cpyStr_then ok fun a => ?_
    refine Linear.free (l'.blocks + strBlock a ok) (by abel) ?_
    exact Linear.ret (leaves_str hsm h' a ok Multiset.card_zero (by abel))
  | replaced => cases hget

/-- The pair at `b` stays. -/
theorem executeXx_leaves (h : Models l sm) (q : Nat) (k : KeyLay) (v : ValueLay) (b : Nat)
    {old : KeyValuePair RedisImpl.KeyNode RedisImpl.ValueNode} (p : KeyValuePair Ptr Ptr)
    (hget : sm.get k.val RedisImpl.compare = some old) :
    Linear (pt b (.pair p) + (l.blocks + pairBlocks q k v))
      (executeXx .ok (some l.sm) (some q) (some b))
      (Leaves l.sm
        (match sm.set .ok ⟨k.val, v.val⟩ RedisImpl.compare with
          | (.sucessUpgrade, sm', _) => (some ok, sm')
          | (_, sm', _) => (some nil, sm')) 1) := by
  unfold executeXx
  rw [if_pos Option.isSome_some]
  refine Linear.call (set_models h q k v) (pt b (.pair p)) (add_comm _ _) ?_
  intro r C hdone
  generalize sm.get k.val RedisImpl.compare = old at hdone hget
  generalize sm.set .ok ⟨k.val, v.val⟩ RedisImpl.compare = res at hdone ⊢
  cases hdone with
  | failed => cases hget
  | new => cases hget
  | replaced l' sm' k' v' hsm h' =>
    rw [if_pos rfl]
    refine cpyStr_then ok fun a => ?_
    refine discard_then q k' v' (l'.blocks + pt b (.pair p) + strBlock a ok) (by abel) ?_
    exact Linear.ret (leaves_str hsm h' a ok (card_pt b _) rfl)

/-- The new pair is cleaned up, and the reply is nil. -/
theorem refuse_leaves (h : Models l sm) (q : Nat) (k : KeyLay) (v : ValueLay)
    (G : Multiset (Nat × Obj Datum)) :
    Linear (G + (l.blocks + pairBlocks q k v))
      (do
        let rtnVal ← cpyStr nil
        cleanUpPair (some q)
        HeapM.free (some q)
        return rtnVal)
      (Leaves l.sm (some nil, sm) G.card) := by
  refine cpyStr_then nil fun a => ?_
  refine discard_then q k v (l.blocks + G + strBlock a nil) (by abel) ?_
  exact Linear.ret (leaves_str rfl h a nil rfl rfl)

theorem executeSetNxXx_leaves (h : Models l sm) (q : Nat) (k : KeyLay) (v : ValueLay)
    {slots : ParsedCmd} {w : CondWord} (hw : slots 3 = some (.bulk w)) :
    Linear (l.blocks + pairBlocks q k v) (executeSetNxXx .ok (some l.sm) (some q) slots)
      (Leaves l.sm (RedisImpl.executeSetNxXx .ok sm ⟨k.val, v.val⟩ slots)
        (leaksNxXx sm ⟨k.val, v.val⟩ w)) := by
  have hcheck := executeSetCheck_reads (subset_blocks_add l (pairBlocks q k v))
    (fun x hx => Multiset.mem_add.mpr (.inr hx))
  have hpair : (q, .pair ⟨Owned.ptr k, Owned.ptr v⟩) ∈ l.blocks + pairBlocks q k v :=
    Multiset.mem_add.mpr (.inr (pair_mem q k v))
  have hkey : Owned.blocks k ⊆ l.blocks + pairBlocks q k v :=
    fun x hx => Multiset.mem_add.mpr (.inr (subset_pairBlocks q k v hx))
  have hc : slots.content 3 = some w.1 := by rw [ParsedCmd.content, hw]; rfl
  have hnone : (slots 3).isNone = false := by rw [hw]; rfl
  unfold executeSetNxXx RedisImpl.executeSetNxXx leaksNxXx
  rw [h.check]
  refine Linear.read hcheck ?_
  rw [if_neg (by simp [hnone]), if_neg (by simp)]
  simp only [hc]
  by_cases hnx : getOptionType w = .nx
  · rw [if_pos (getOptionType_nx.mp hnx), if_pos (getOptionType_nx.mp hnx)]
    refine Linear.read (pairAt_reads hpair) ?_
    rcases get_models h (subset_blocks_add l (pairBlocks q k v)) hkey with
      ⟨hget, hread⟩ | ⟨k', v', -, hget, hnew⟩
    · refine Linear.read hread ?_
      simp only [hget, hnx, true_and, Option.isSome_none, Bool.false_eq_true, if_false]
      exact executeNx_leaves h q k v hget
    · -- the pair that `get` has built for the test is not freed
      refine Linear.bind hnew ?_
      rintro _ _ ⟨b, rfl, rfl⟩
      simp only [hget, Option.isSome_some, if_true]
      exact refuse_leaves h q k v (pt b _)
  · have hxx := getOptionType_xx.mp (w.2.resolve_left hnx)
    have hne : ¬ cstr w.1 = ascii "NX" := fun hn => hnx (getOptionType_nx.mpr hn)
    rw [if_neg hne, if_neg hne, if_pos hxx, if_pos hxx]
    refine Linear.read (pairAt_reads hpair) ?_
    rcases get_models h (subset_blocks_add l (pairBlocks q k v)) hkey with
      ⟨hget, hread⟩ | ⟨k', v', -, hget, hnew⟩
    · refine Linear.read hread ?_
      simp only [hget, hnx, false_and, Option.isSome_none, Bool.false_eq_true, if_false]
      exact Linear.of_eq (zero_add _).symm (refuse_leaves h q k v 0)
    · refine Linear.bind hnew ?_
      rintro _ _ ⟨b, rfl, rfl⟩
      simp only [hget, Option.isSome_some, if_true]
      exact executeXx_leaves h q k v b _ hget

/-- `execute_set_nx_xx` at the end of `execute_set_nxxx_get`, with the reply `s` and the blocks `G`. -/
theorem setAndReply_leaves (h : Models l sm) (q : Nat) (k : KeyLay) (v : ValueLay)
    {slots : ParsedCmd} {w : CondWord} (hw : slots 3 = some (.bulk w)) (a : Nat) (s : Bytes)
    (G : Multiset (Nat × Obj Datum)) :
    Linear (strBlock a s + (G + (l.blocks + pairBlocks q k v)))
      (setAndReply .ok (some l.sm) (some q) slots (some a))
      (Leaves l.sm
        (match RedisImpl.executeSetNxXx .ok sm ⟨k.val, v.val⟩ slots with
          | (some _, sm') => (some s, sm')
          | (none, sm') => (none, sm'))
        (leaksNxXx sm ⟨k.val, v.val⟩ w + G.card)) := by
  unfold setAndReply
  refine Linear.call (executeSetNxXx_leaves h q k v hw) (strBlock a s + G) (by abel) ?_
  rintro p _ ⟨l', G', S, hsm, h', hn, hreply, rfl⟩
  rw [← hn, ← Multiset.card_add]
  generalize RedisImpl.executeSetNxXx .ok sm ⟨k.val, v.val⟩ slots = r at h' hreply
  obtain ⟨reply, sm'⟩ := r
  cases hreply with
  | null =>
    -- `set` failed: the reply is freed
    refine freeStr_then a s (l'.blocks + (G' + G)) (by abel) ?_
    exact Linear.ret (leaves_null hsm h' rfl rfl)
  | str b t =>
    -- the reply of `execute_set_nx_xx` is freed, and `s` is returned
    refine freeStr_then b t (l'.blocks + (G' + G) + strBlock a s) (by abel) ?_
    exact Linear.ret (leaves_str hsm h' a s rfl rfl)

theorem executeSetNxxxGet_leaves (h : Models l sm) (q : Nat) (k : KeyLay) (v : ValueLay)
    {slots : ParsedCmd} {w : CondWord} (hw : slots 3 = some (.bulk w)) :
    Linear (l.blocks + pairBlocks q k v) (executeSetNxxxGet .ok (some l.sm) (some q) slots)
      (Leaves l.sm (RedisImpl.executeSetNxxxGet .ok sm ⟨k.val, v.val⟩ slots)
        (leaksNxXx sm ⟨k.val, v.val⟩ w +
          if (sm.get k.val RedisImpl.compare).isSome then 1 else 0)) := by
  have hcheck := executeSetCheck_reads (subset_blocks_add l (pairBlocks q k v))
    (fun x hx => Multiset.mem_add.mpr (.inr hx))
  have hpair : (q, .pair ⟨Owned.ptr k, Owned.ptr v⟩) ∈ l.blocks + pairBlocks q k v :=
    Multiset.mem_add.mpr (.inr (pair_mem q k v))
  have hkey : Owned.blocks k ⊆ l.blocks + pairBlocks q k v :=
    fun x hx => Multiset.mem_add.mpr (.inr (subset_pairBlocks q k v hx))
  have hnone : (slots 3).isNone = false := by rw [hw]; rfl
  unfold executeSetNxxxGet RedisImpl.executeSetNxxxGet
  rw [h.check]
  refine Linear.read hcheck ?_
  simp only [hnone, Bool.not_true, Bool.false_eq_true, if_false]
  refine Linear.read (pairAt_reads hpair) ?_
  rcases get_models h (subset_blocks_add l (pairBlocks q k v)) hkey with
    ⟨hget, hread⟩ | ⟨k', v', hmem, hget, hnew⟩
  · refine Linear.read hread ?_
    rw [if_pos Option.isNone_none]
    refine cpyStr_then nil fun a => ?_
    have hlast := setAndReply_leaves h q k v hw a nil 0
    rw [zero_add, Multiset.card_zero] at hlast
    simp only [hget, Option.isSome_none, Bool.false_eq_true, if_false]
    exact hlast
  · obtain ⟨hk', hv'⟩ := Layout.entry_subset hmem
    refine Linear.bind hnew ?_
    rintro _ _ ⟨b, rfl, rfl⟩
    have hsub : ∀ x ∈ l.blocks,
        x ∈ pt b (.pair ⟨Owned.ptr k', Owned.ptr v'⟩) + (l.blocks + pairBlocks q k v) := by
      intro x hx
      simp [hx]
    have hold : (b, .pair ⟨Owned.ptr k', Owned.ptr v'⟩) ∈
        pt b (.pair ⟨Owned.ptr k', Owned.ptr v'⟩) + (l.blocks + pairBlocks q k v) := by
      simp
    rw [if_neg (by simp)]
    refine Linear.read (pairAt_reads hold) ?_
    rw [if_neg (by simp [Owned.ptr])]
    refine Linear.read (keyNodeAt_reads (hsub _ (hk' (key_mem k')))) ?_
    rw [if_neg (by simp)]
    have hstr : Linear (pt b (.pair ⟨Owned.ptr k', Owned.ptr v'⟩) + (l.blocks + pairBlocks q k v))
        (oldValueReply (Owned.ptr v')) fun p C => ∃ a, p = some a ∧
          C = strBlock a (bulkString v'.bytes) +
            (pt b (.pair ⟨Owned.ptr k', Owned.ptr v'⟩) + (l.blocks + pairBlocks q k v)) := by
      unfold oldValueReply
      refine Linear.read (valueNodeAt_reads (hsub _ (hv' (value_mem v')))) ?_
      rw [if_pos ⟨rfl, rfl⟩]
      exact keyOrValueNodeToString_linear fun x hx => hsub x (hv' hx)
    refine Linear.bind hstr ?_
    rintro _ _ ⟨a, rfl, rfl⟩
    -- the pair `b` stays behind, whatever `execute_set_nx_xx` does
    have hlast := setAndReply_leaves h q k v hw a (bulkString v'.bytes)
      (pt b (.pair ⟨Owned.ptr k', Owned.ptr v'⟩))
    rw [card_pt] at hlast
    simp only [hget, Option.isSome_some, if_true]
    exact hlast

end Executors

/-! ## SET -/

/-- The blocks that the executor for the state leaves behind. A combination of options without an
executor leaves the pair with its key and value. -/
def leaksState (state : BitVec 8) (slots : ParsedCmd) (sm : Store)
    (kvp : KeyValuePair RedisImpl.KeyNode RedisImpl.ValueNode) : Nat :=
  let option := (slots.content 3).getD []
  if state = SetState.setBasic.val then 0 else
  if state = SetState.setGet.val then 0 else
  if state = SetState.setNxxx.val then leaksNxXx sm kvp option else
  if state = SetState.setNxxxGet.val then
    leaksNxXx sm kvp option + if (sm.get kvp.key RedisImpl.compare).isSome then 1 else 0 else
  if state = SetState.setExPxExalPxat.val then 0 else
  6

/-- The blocks that `handle_set_cmd` leaves behind. -/
def leaksSet (now : Timespec) (node : List Node) (sm : Store) : Nat :=
  match validateSetCmd node with
  | none => 0
  | some (state, slots) =>
    match slots.content 5, slots 4 with
    | some k, some v =>
      match RedisImpl.createKeyNode now k 0 0, RedisImpl.createValueNode v with
      | some key, some value => leaksState state slots sm ⟨key, value⟩
      | _, _ => 0
    | _, _ => 0

section SetCmd

variable {l : Layout KeyLay ValueLay} {sm : Store}

/-- Which executor runs. -/
theorem executeState_eq (ra : Realloc) (c : SetCommand) (a q : Ptr) :
    executeState ra c.state c.parsedCmd a q =
      match c.nxxx, c.get, c.time with
      | none, none, none => executeSetBasic ra a q
      | none, some _, none => executeSetGet ra a q
      | some _, none, none => executeSetNxXx ra a q c.parsedCmd
      | some _, some _, none => executeSetNxxxGet ra a q c.parsedCmd
      | none, none, some _ => executeSetExPxExatPxat ra a q c.parsedCmd
      | _, _, some _ => pure none := by
  unfold executeState
  obtain ⟨k, v, _ | w, _ | g, _ | t⟩ := c <;>
    simp +decide only [SetCommand.state, Option.isSome_some, Option.isSome_none, if_true, if_false]

theorem leaksState_eq (c : SetCommand) (sm : Store)
    (kvp : KeyValuePair RedisImpl.KeyNode RedisImpl.ValueNode) :
    leaksState c.state c.parsedCmd sm kvp =
      match c.nxxx, c.get, c.time with
      | none, none, none => 0
      | none, some _, none => 0
      | some w, none, none => leaksNxXx sm kvp w
      | some w, some _, none =>
        leaksNxXx sm kvp w + if (sm.get kvp.key RedisImpl.compare).isSome then 1 else 0
      | none, none, some _ => 0
      | _, _, some _ => 6 := by
  unfold leaksState
  obtain ⟨k, v, _ | w, _ | g, _ | t⟩ := c <;>
    simp +decide only [SetCommand.state, Option.isSome_some, Option.isSome_none, if_true, if_false,
      ParsedCmd.content, SetCommand.parsedCmd_nxxx, Option.map_some, Option.bind_some,
      Node.bulkContent_bulk, Option.getD_some]

/-- The executor for the options. -/
theorem executeState_leaves (h : Models l sm) (now : Timespec) (c : SetCommand) (hk : c.key ≠ [])
    (hv : c.value ≠ []) (q : Nat) {k : KeyLay} {v : ValueLay} (hkey : k.val = ⟨c.key, now, 0, 0⟩)
    (hval : v.bytes = c.value) :
    Linear (l.blocks + pairBlocks q k v) (executeState .ok c.state c.parsedCmd (some l.sm) (some q))
      (Leaves l.sm (RedisImpl.executeSetCmd now .ok c.state c.parsedCmd sm)
        (leaksState c.state c.parsedCmd sm ⟨k.val, v.val⟩)) := by
  have hpair : newPair c now = ⟨k.val, v.val⟩ := by
    rw [newPair, hkey, ValueLay.val, hval]
  rw [executeState_eq, executeSetCmd_eq now .ok hk hv, leaksState_eq, hpair]
  -- an expiry together with another option has no executor: `leaves_pair`
  cases hn : c.nxxx with
  | none =>
    cases hg : c.get with
    | none =>
      cases ht : c.time with
      | none => exact executeSetBasic_leaves h q k v
      | some t =>
        have ho : c.parsedCmd.content 1 = some t.1.1 := by
          rw [ParsedCmd.content, SetCommand.parsedCmd_timeWord, ht]
          rfl
        have hd : c.parsedCmd.content 0 = some t.2.1 := by
          rw [ParsedCmd.content, SetCommand.parsedCmd_timeDigits, ht]
          rfl
        exact executeSetExPxExatPxat_leaves h q k v ho hd t.1.2
    | some g =>
      cases ht : c.time with
      | none => exact executeSetGet_leaves h q k v
      | some t => exact leaves_pair h q k v
  | some w =>
    have hw : c.parsedCmd 3 = some (.bulk w) := by rw [SetCommand.parsedCmd_nxxx, hn]; rfl
    cases hg : c.get with
    | none =>
      cases ht : c.time with
      | none => exact executeSetNxXx_leaves h q k v hw
      | some t => exact leaves_pair h q k v
    | some g =>
      cases ht : c.time with
      | none => exact executeSetNxxxGet_leaves h q k v hw
      | some t => exact leaves_pair h q k v

/-- The blocks of `leaksSet` for an accepted command. -/
theorem leaksSet_args (now : Timespec) (c : SetCommand) (sm : Store) :
    leaksSet now c.args sm =
      if c.key = [] ∨ c.value = [] then 0 else leaksState c.state c.parsedCmd sm (newPair c now) := by
  simp only [leaksSet, validateSetCmd_args, ParsedCmd.content, SetCommand.parsedCmd_key,
    SetCommand.parsedCmd_value, Option.bind_some, Node.bulkContent_bulk]
  by_cases hk : c.key = []
  · simp [hk, RedisImpl.createKeyNode]
  · by_cases hv : c.value = []
    · simp [hk, hv, createKeyNode_of_ne hk, RedisImpl.createValueNode, RedisImpl.createValueNodeString]
    · simp [hk, hv, createKeyNode_of_ne hk, createValueNode_of_ne hv, newPair]

/-- The nodes of the key and the value, and the executor. -/
theorem executeSetCmd_leaves (h : Models l sm) (now : Timespec) (c : SetCommand) (p : Nat) :
    Linear (pt p (.data (.parsedCmd c.parsedCmd)) + l.blocks)
      (executeSetCmd now .ok c.state (some p) (some l.sm)) fun rtn C =>
        ∃ C', Leaves l.sm (RedisImpl.handleSetCmd now .ok c.args sm) (leaksSet now c.args sm) rtn C' ∧
          C = pt p (.data (.parsedCmd c.parsedCmd)) + C' := by
  let slots : Multiset (Nat × Obj Datum) := pt p (.data (.parsedCmd c.parsedCmd))
  have hempty : c.key = [] ∨ c.value = [] →
      Leaves l.sm (RedisImpl.handleSetCmd now .ok c.args sm) (leaksSet now c.args sm) none l.blocks := by
    intro he
    rw [handleSetCmd_empty now .ok he, leaksSet_args, if_pos he]
    exact leaves_null rfl h Multiset.card_zero (add_zero _).symm
  unfold executeSetCmd
  refine Linear.read (parsedCmdAt_reads (Multiset.mem_add.mpr (.inl (mem_pt.mpr rfl)))) ?_
  simp only [ParsedCmd.content, SetCommand.parsedCmd_key, SetCommand.parsedCmd_value,
    Option.bind_some, Node.bulkContent_bulk]
  by_cases hk : c.key = []
  · rw [hk]
    refine Linear.read (createKeyNode_empty now 0 0) ?_
    exact Linear.ret ⟨l.blocks, hempty (.inl hk), rfl⟩
  refine Linear.call (createKeyNode_linear now hk 0 0) (slots + l.blocks) (zero_add _).symm ?_
  rintro _ _ ⟨k, rfl, hkey, rfl⟩
  rw [if_neg (by simp [Owned.ptr])]
  by_cases hv : c.value = []
  · -- the key node is there already, and goes
    rw [hv]
    refine Linear.read (b := none) (.ret none) ?_
    rw [if_pos Option.isNone_none]
    refine Linear.call (cleanUpKv_none k) (slots + l.blocks) rfl ?_
    rintro _ _ rfl
    exact Linear.ret ⟨l.blocks, hempty (.inr hv), zero_add _⟩
  refine Linear.call (createValueNode_linear hv) (Owned.blocks k + (slots + l.blocks))
    (zero_add _).symm ?_
  rintro _ _ ⟨v, rfl, hval, rfl⟩
  rw [if_neg (by simp [Owned.ptr]), createKeyValPair, if_neg (by simp [Owned.ptr])]
  refine Linear.alloc _ fun q => ?_
  refine Linear.last (executeState_leaves h now c hk hv q hkey hval) slots
    (by rw [pairBlocks]; abel) ?_
  intro rtn C hC
  refine ⟨C, ?_, add_comm _ _⟩
  rw [handleSetCmd_args, leaksSet_args, if_neg (by simp [hk, hv])]
  have hpair : newPair c now = ⟨k.val, v.val⟩ := by
    rw [newPair, hkey, ValueLay.val, hval]
  rw [hpair]
  exact hC

/-- `handle_set_cmd`, whatever its arguments are. -/
theorem handleSetCmd_leaves (h : Models l sm) (now : Timespec) (node : List Node) :
    Linear l.blocks (handleSetCmd now .ok node (some l.sm))
      (Leaves l.sm (RedisImpl.handleSetCmd now .ok node sm) (leaksSet now node sm)) := by
  have hrefused : validateSetCmd node = none →
      Leaves l.sm (RedisImpl.handleSetCmd now .ok node sm) (leaksSet now node sm) none l.blocks := by
    intro hn
    rw [RedisImpl.handleSetCmd, leaksSet, hn]
    exact leaves_null rfl h Multiset.card_zero (add_zero _).symm
  unfold handleSetCmd
  by_cases he : node.isEmpty = true
  · rw [if_pos he]
    obtain rfl := List.isEmpty_iff.mp he
    exact Linear.ret (hrefused rfl)
  rw [if_neg he]
  refine Linear.alloc _ fun p => ?_
  cases hn : validateSetCmd node with
  | none => exact Linear.free l.blocks rfl (Linear.ret (hrefused hn))
  | some r =>
    obtain ⟨c, rfl, rfl⟩ := (validateSetCmd_eq_some node r).mp hn
    refine Linear.store l.blocks _ rfl ?_
    refine Linear.bind (executeSetCmd_leaves h now c p) ?_
    rintro rtn _ ⟨C, hC, rfl⟩
    exact Linear.free C rfl (Linear.ret hC)

end SetCmd

/-! ## GET -/

/-- The blocks that `handle_get_cmd` leaves behind: the wrappers of an entry that has expired. -/
def leaksGet (lc : Libc) (now : Timespec) (gnode : List Node) (sm : Store) : Nat :=
  match isCmdValid gnode with
  | none => 0
  | some content =>
    match RedisImpl.createKeyNode now content 0 0 with
    | none => 0
    | some key =>
      match sm.get key RedisImpl.compare with
      | none => 0
      | some kvp => if RedisImpl.hasKeyExpired lc key kvp.key then 2 else 0

section GetCmd

variable {l : Layout KeyLay ValueLay} {sm : Store} {k k' : KeyLay} {v' : ValueLay} {q : Nat}

/-- `remove_key` in GET. -/
theorem removeExpired_leaves (h : Models l sm)
    (hlk : Keyed.lookup (SimpleMap.ident KeyLay.id) l.entries k.id = some (k', v')) :
    Linear (pt q (.pair ⟨Owned.ptr k', Owned.ptr v'⟩) + (l.blocks + Owned.blocks k))
      (removeExpired (some l.sm) (Owned.ptr k) (some q))
      (Leaves l.sm
        (match sm.removeKey k.val RedisImpl.compare with
          | (.removeError, sm', _) => (none, sm')
          | (.removeKeyNotFound, sm', _) => (some nil, sm')
          | (.removeSuccess, sm', _) => (some nil, sm')) 2) := by
  have hl : Keyed.lookup (SimpleMap.ident RedisImpl.KeyNode.id) (l.entries.map nodes) k.id =
      some (nodes (k', v')) := by rw [Models.lookup, hlk]; rfl
  have hid : RedisImpl.KeyNode.id k.val = k.id := rfl
  obtain ⟨sm', hrm, hst, hcap⟩ := h.stores.removeKey_found (hid ▸ hl)
  have hremove := Models.remove l k.id
  rw [compare_eq_cmpBy, hrm]
  refine Linear.call (removeKey_present compare_compares hlk)
    (pt q (.pair ⟨Owned.ptr k', Owned.ptr v'⟩)) (add_comm _ _) ?_
  rintro _ _ ⟨rfl, l', W, hsm, hes, hcap', hW, rfl⟩
  have h' : Models l' sm' := by
    refine ⟨?_, ?_, ?_⟩
    · rw [hes]
      exact hremove ▸ hst
    · rw [hcap, hcap', h.capacity]
    · rw [hcap']
      exact h.bound
  refine Linear.call (cleanUpKv_none k) (l'.blocks + W + (Owned.blocks k' + Owned.blocks v') +
    pt q (.pair ⟨Owned.ptr k', Owned.ptr v'⟩)) (by abel) ?_
  rintro _ _ rfl
  refine Linear.call (cleanUpKv_linear k' v')
    (l'.blocks + W + pt q (.pair ⟨Owned.ptr k', Owned.ptr v'⟩)) (by abel) ?_
  rintro _ _ rfl
  refine Linear.free (l'.blocks + W) (by abel) ?_
  refine Linear.last (cpyStr_linear nil) (l'.blocks + W) (zero_add _).symm ?_
  rintro _ _ ⟨a, rfl, rfl⟩
  exact leaves_str hsm h' a nil hW (add_comm _ _)

/-- The value of a key that has not expired. -/
theorem replyValue_leaves (h : Models l sm) (hmem : (k', v') ∈ l.entries) :
    Linear (pt q (.pair ⟨Owned.ptr k', Owned.ptr v'⟩) + (l.blocks + Owned.blocks k))
      (replyValue (Owned.ptr k) (some q) (Owned.ptr v'))
      (Leaves l.sm (some (bulkString v'.bytes), sm) 0) := by
  have hv : Owned.blocks v' ⊆
      pt q (.pair ⟨Owned.ptr k', Owned.ptr v'⟩) + (l.blocks + Owned.blocks k) := by
    intro x hx
    simp [(Layout.entry_subset hmem).2 hx]
  unfold replyValue
  refine Linear.read (valueNodeAt_reads (hv (value_mem v'))) ?_
  refine Linear.bind (keyOrValueNodeToString_linear hv) ?_
  rintro _ _ ⟨a, rfl, rfl⟩
  refine Linear.call (cleanUpKv_none k) (strBlock a (bulkString v'.bytes) +
    (pt q (.pair ⟨Owned.ptr k', Owned.ptr v'⟩) + l.blocks)) (by abel) ?_
  rintro _ _ rfl
  refine Linear.free (l.blocks + strBlock a (bulkString v'.bytes)) (by abel) ?_
  exact Linear.ret (leaves_str rfl h a _ Multiset.card_zero (by abel))

/-- `handle_get_cmd`, whatever its arguments are. -/
theorem handleGetCmd_leaves (h : Models l sm) (lc : Libc) (now : Timespec) (gnode : List Node) :
    Linear l.blocks (handleGetCmd lc now gnode (some l.sm))
      (Leaves l.sm (RedisImpl.handleGetCmd lc now gnode sm) (leaksGet lc now gnode sm)) := by
  have hrefused : Leaves l.sm (none, sm) 0 none l.blocks :=
    leaves_null rfl h Multiset.card_zero (add_zero _).symm
  unfold handleGetCmd RedisImpl.handleGetCmd leaksGet
  cases hc : isCmdValid gnode with
  | none => exact Linear.ret hrefused
  | some content =>
    by_cases he : content = []
    · subst he
      exact Linear.read (createKeyNode_empty now 0 0) (Linear.ret hrefused)
    simp only [createKeyNode_of_ne he]
    refine Linear.call (createKeyNode_linear now he 0 0) l.blocks (zero_add _).symm ?_
    rintro _ _ ⟨k, rfl, hkey, rfl⟩
    rw [← hkey, if_neg (by simp [Owned.ptr]), h.get]
    have hl : l.blocks ⊆ Owned.blocks k + l.blocks := fun x hx => Multiset.mem_add.mpr (.inr hx)
    have hk : Owned.blocks k ⊆ Owned.blocks k + l.blocks := fun x hx => Multiset.mem_add.mpr (.inl hx)
    -- no entry, one that has expired, or a value to reply with; the key node is freed each time
    cases hlk : Keyed.lookup (SimpleMap.ident KeyLay.id) l.entries k.id with
    | none =>
      refine Linear.read (get_absent compare_compares hl hk hlk) ?_
      rw [if_pos Option.isNone_none]
      refine cpyStr_then nil fun a => ?_
      refine Linear.call (cleanUpKv_none k) (l.blocks + strBlock a nil) (by abel) ?_
      rintro _ _ rfl
      exact Linear.ret (leaves_str rfl h a nil Multiset.card_zero (by abel))
    | some e =>
      obtain ⟨k', v'⟩ := e
      have hmem := Keyed.mem_of_lookup hlk
      refine Linear.bind (get_present compare_compares hl hk hlk) ?_
      rintro _ _ ⟨q, rfl, rfl⟩
      have hsub : ∀ x ∈ Owned.blocks k + l.blocks,
          x ∈ pt q (.pair ⟨Owned.ptr k', Owned.ptr v'⟩) + (Owned.blocks k + l.blocks) :=
        fun x hx => Multiset.mem_add.mpr (.inr hx)
      have hexp := hasKeyExpired_reads lc (fun x hx => hsub x (hk hx))
        (fun x hx => hsub x (hl ((Layout.entry_subset hmem).1 hx)))
      rw [if_neg (by simp)]
      refine Linear.read (pairAt_reads (Multiset.mem_add.mpr (.inl (mem_pt.mpr rfl)))) ?_
      rw [if_neg (by simp [Owned.ptr])]
      refine Linear.read hexp ?_
      simp only [Option.map_some]
      by_cases hx : RedisImpl.hasKeyExpired lc k.val k'.val = true
      · rw [if_pos hx, if_pos hx, if_pos hx, add_comm (Owned.blocks k)]
        exact removeExpired_leaves h hlk
      · rw [if_neg hx, if_neg hx, if_neg hx, add_comm (Owned.blocks k)]
        exact replyValue_leaves h hmem

end GetCmd
end InMemory
end RedisImpl
