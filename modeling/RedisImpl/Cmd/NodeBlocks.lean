import RedisImpl.Cmd.InMemory
import RedisImpl.Store.Blocks

/-!
# The blocks of keys, values and replies

`KeyLay` and `ValueLay`: where a key node and a value node are, with the blocks that belong to them.
The functions on nodes of `Cmd/InMemory.lean` build these, compare them, write them out and free them,
as the functions of `Cmd/KeyValue.lean` say, inside their buffers.
-/

namespace RedisImpl
namespace InMemory

open Heap

/-- A block with a string and the NUL at its end. -/
def strBlock (a : Nat) (s : Bytes) : Multiset (Nat × Obj Datum) := pt a (.data (.chars (s ++ [0])))

/-- Where a key node is. -/
structure KeyLay where
  node : Nat
  content : Nat
  time : Nat
  val : RedisImpl.KeyNode

instance : Owned KeyLay Datum where
  addr := KeyLay.node
  blocks k :=
    pt k.node (.data (.keyNode
      ⟨some k.content, some k.time, k.val.ex, k.val.px, k.val.content.length⟩)) +
      (strBlock k.content k.val.content + pt k.time (.data (.timespec k.val.inputTime)))

/-- Where a value node is. The commands store bulk strings only. -/
structure ValueLay where
  node : Nat
  content : Nat
  bytes : Bytes

/-- The value node. -/
def ValueLay.val (v : ValueLay) : RedisImpl.ValueNode := ⟨v.bytes, .bulkStr⟩

instance : Owned ValueLay Datum where
  addr := ValueLay.node
  blocks v :=
    pt v.node (.data (.valueNode ⟨some v.content, .bulkStr, v.bytes.length⟩)) +
      strBlock v.content v.bytes

/-- The bytes of a key. -/
abbrev KeyLay.id (k : KeyLay) : Bytes := k.val.content

variable {B D : Multiset (Nat × Obj Datum)} {a : Nat} {β : Type}
  {R : β → Multiset (Nat × Obj Datum) → Prop}

/-! ## Access -/

section Access

theorem keyNodeAt_reads {k : KeyNode} (h : (a, .data (.keyNode k)) ∈ B) :
    Reads B (keyNodeAt (some a)) k :=
  (Reads.load h).bind (.ret k)

theorem valueNodeAt_reads {v : ValueNode} (h : (a, .data (.valueNode v)) ∈ B) :
    Reads B (valueNodeAt (some a)) v :=
  (Reads.load h).bind (.ret v)

theorem timespecAt_reads {ts : Timespec} (h : (a, .data (.timespec ts)) ∈ B) :
    Reads B (timespecAt (some a)) ts :=
  (Reads.load h).bind (.ret ts)

theorem charsAt_reads {s : Bytes} (h : (a, .data (.chars s)) ∈ B) :
    Reads B (charsAt (some a)) s :=
  (Reads.load h).bind (.ret s)

theorem parsedCmdAt_reads {slots : ParsedCmd} (h : (a, .data (.parsedCmd slots)) ∈ B) :
    Reads B (parsedCmdAt (some a)) slots :=
  (Reads.load h).bind (.ret slots)

theorem charAt_reads {s : Bytes} {i : Nat} {c : UInt8} (h : (a, .data (.chars s)) ∈ B)
    (hc : s[i]? = some c) : Reads B (charAt (some a) i) c := by
  refine (charsAt_reads h).bind ?_
  rw [hc]
  exact .ret c

theorem bytesAt_reads {s : Bytes} {n : Nat} (h : (a, .data (.chars s)) ∈ B) (hn : n ≤ s.length) :
    Reads B (bytesAt (some a) n) (s.take n) := by
  refine (charsAt_reads h).bind ?_
  rw [if_pos hn]
  exact .ret _

/-- A copy behind what is filled in already. -/
theorem memcpy_linear (pre src : Bytes) {n : Nat} (hn : src.length ≤ n) :
    Linear (pt a (.data (.chars (pre ++ List.replicate n 0)))) (memcpy (some a) pre.length src)
      fun _ C => C = pt a (.data (.chars (pre ++ src ++ List.replicate (n - src.length) 0))) := by
  refine Linear.read (charsAt_reads (mem_pt.mpr rfl)) ?_
  rw [if_pos (by simpa using hn)]
  refine Linear.of_bind_pure (Linear.store 0 _ (add_zero _).symm (Linear.ret ?_))
  have hdrop : (pre ++ List.replicate n (0 : UInt8)).drop (pre.length + src.length) =
      List.replicate (n - src.length) 0 := by
    rw [List.drop_append, List.drop_replicate, Nat.add_sub_cancel_left,
      List.drop_eq_nil_of_le (Nat.le_add_right _ _), List.nil_append]
  rw [add_zero, List.take_left, hdrop]

/-- A copy behind what is filled in, in the middle of a computation. -/
theorem memcpy_then {k : Unit → Mem β} (pre src : Bytes) {pos n m : Nat} (hpos : pos = pre.length)
    (hn : n = src.length + m)
    (hk : Linear (pt a (.data (.chars (pre ++ src ++ List.replicate m 0))) + B) (k ()) R) :
    Linear (pt a (.data (.chars (pre ++ List.replicate n 0))) + B) (memcpy (some a) pos src >>= k)
      R := by
  subst hpos hn
  refine Linear.call (memcpy_linear pre src (Nat.le_add_right _ _)) B rfl ?_
  rintro _ _ rfl
  rwa [Nat.add_sub_cancel_left]

theorem callocChars_then {g : Ptr → Mem β} (n : Nat)
    (hg : ∀ a, Linear (pt a (.data (.chars ([] ++ List.replicate n 0))) + B) (g (some a)) R) :
    Linear B (callocChars n >>= g) R :=
  Linear.alloc _ hg

end Access

/-! ## New nodes -/

/-- A copy of a content, with the NUL. -/
theorem copy_then {g : Ptr → Mem β} (content : Bytes)
    (hg : ∀ a, Linear (strBlock a content + B) (g (some a)) R) :
    Linear B (do
      let copy ← callocChars (content.length + 1)
      memcpy copy 0 content
      memcpy copy content.length [0]
      g copy) R := by
  refine callocChars_then _ fun a => ?_
  refine memcpy_then (m := 1) [] content rfl rfl ?_
  refine memcpy_then (m := 0) ([] ++ content) [0] rfl rfl ?_
  simpa [strBlock] using hg a

theorem createKeyNode_linear (now : Timespec) {content : Bytes} (hc : content ≠ [])
    (ex px : BitVec 32) :
    Linear 0 (createKeyNode now content ex px) fun p C =>
      ∃ k : KeyLay, p = Owned.ptr k ∧ k.val = ⟨content, now, ex, px⟩ ∧ C = Owned.blocks k := by
  have hlen : ¬ content.length < 1 := by simpa using hc
  unfold createKeyNode
  rw [if_neg hlen]
  refine Linear.alloc _ fun node => ?_
  refine Linear.alloc _ fun time => ?_
  refine Linear.store _ _ rfl ?_
  refine copy_then content fun copy => ?_
  refine Linear.store (strBlock copy content + pt time (.data (.timespec now))) _ (by abel) ?_
  exact Linear.ret ⟨⟨node, copy, time, content, now, ex, px⟩, rfl, rfl, rfl⟩

theorem createKeyNode_empty (now : Timespec) (ex px : BitVec 32) :
    Reads B (createKeyNode now [] ex px) none := .ret none

theorem createValueNode_linear {content : Bytes} (hc : content ≠ []) :
    Linear 0 (createValueNode (.bulk content)) fun p C =>
      ∃ v : ValueLay, p = Owned.ptr v ∧ v.bytes = content ∧ C = Owned.blocks v := by
  have hlen : ¬ content.length < 1 := by simpa using hc
  show Linear 0 (createValueNodeString content .bulkStr) _
  unfold createValueNodeString
  rw [if_neg hlen]
  refine Linear.alloc _ fun node => ?_
  refine copy_then content fun copy => ?_
  refine Linear.store (strBlock copy content) _ (by abel) ?_
  exact Linear.ret ⟨⟨node, copy, content⟩, rfl, rfl, rfl⟩

/-- A reply. -/
theorem cpyStr_linear (src : Bytes) :
    Linear 0 (cpyStr src) fun p C => ∃ a, p = some a ∧ C = strBlock a src := by
  unfold cpyStr
  refine callocChars_then _ fun a => ?_
  refine memcpy_then (m := 0) [] (src ++ [0]) rfl (by simp) ?_
  exact Linear.ret ⟨a, rfl, by simp [strBlock]⟩

/-! ## `compare` -/

section Compare

variable {k : KeyLay} {v : ValueLay}

theorem key_mem (k : KeyLay) : (k.node, .data (.keyNode
    ⟨some k.content, some k.time, k.val.ex, k.val.px, k.val.content.length⟩)) ∈ Owned.blocks k := by
  simp [Owned.blocks]

theorem content_mem (k : KeyLay) :
    (k.content, .data (.chars (k.val.content ++ [0]))) ∈ Owned.blocks k := by
  simp [Owned.blocks, strBlock]

theorem time_mem (k : KeyLay) : (k.time, .data (.timespec k.val.inputTime)) ∈ Owned.blocks k := by
  simp [Owned.blocks]

theorem value_mem (v : ValueLay) : (v.node, .data (.valueNode
    ⟨some v.content, .bulkStr, v.bytes.length⟩)) ∈ Owned.blocks v := by
  simp [Owned.blocks]

theorem bytes_mem (v : ValueLay) :
    (v.content, .data (.chars (v.bytes ++ [0]))) ∈ Owned.blocks v := by
  simp [Owned.blocks, strBlock]

/-- The comparison from index `i`. -/
theorem compareFrom_reads {a b : Nat} {x y : Bytes} (ha : (a, .data (.chars (x ++ [0]))) ∈ B)
    (hb : (b, .data (.chars (y ++ [0]))) ∈ B) (hlen : x.length = y.length) (n i : Nat)
    (hi : i + n = x.length) :
    Reads B (compareFrom (some a) (some b) n i) (decide (x.drop i = y.drop i)) := by
  induction n generalizing i with
  | zero =>
    rw [List.drop_eq_nil_of_le (by omega), List.drop_eq_nil_of_le (by omega)]
    exact .ret true
  | succ n ih =>
    have hx : i < x.length := by omega
    have hy : i < y.length := by omega
    refine (charAt_reads (c := x[i]) ha (by simp [List.getElem?_append_left hx, hx])).bind ?_
    refine (charAt_reads (c := y[i]) hb (by simp [List.getElem?_append_left hy, hy])).bind ?_
    have he : x.drop i = y.drop i ↔ x[i] = y[i] ∧ x.drop (i + 1) = y.drop (i + 1) := by
      rw [List.drop_eq_getElem_cons hx, List.drop_eq_getElem_cons hy, List.cons.injEq]
    by_cases hc : x[i] = y[i]
    · rw [if_neg (not_not_intro hc)]
      simp only [he, hc, true_and]
      exact ih (i + 1) (by omega)
    · rw [if_pos hc, decide_eq_false fun h => hc (he.mp h).1]
      exact .ret false

theorem compare_compares : Compares compare KeyLay.id := by
  intro a b
  have ha : Owned.blocks a ⊆ Owned.blocks a + Owned.blocks b :=
    fun x hx => Multiset.mem_add.mpr (.inl hx)
  have hb : Owned.blocks b ⊆ Owned.blocks a + Owned.blocks b :=
    fun x hx => Multiset.mem_add.mpr (.inr hx)
  have hfst := keyNodeAt_reads (ha (key_mem a))
  have hsnd := keyNodeAt_reads (hb (key_mem b))
  by_cases hlen : a.val.content.length = b.val.content.length
  · refine ⟨if a.id = b.id then Owned.ptr a else none, ?_, ?_⟩
    · unfold compare
      rw [if_neg (by simp [Owned.ptr])]
      refine hfst.bind (hsnd.bind ?_)
      rw [if_neg (not_not_intro hlen)]
      refine (compareFrom_reads (ha (content_mem a)) (hb (content_mem b)) hlen _ 0
        (Nat.zero_add _)).bind ?_
      simpa using Reads.ret _
    · by_cases hid : a.id = b.id
      · simp [SimpleMap.cmpBy, hid, Owned.ptr]
      · simp [SimpleMap.cmpBy, hid]
  · refine ⟨none, ?_, ?_⟩
    · unfold compare
      rw [if_neg (by simp [Owned.ptr])]
      refine hfst.bind (hsnd.bind ?_)
      rw [if_pos hlen]
      exact .ret none
    · have hne : a.id ≠ b.id := fun hid => hlen (congrArg List.length hid)
      simp [SimpleMap.cmpBy, hne]

/-! ## `clean_up_kv` -/

theorem cleanUpKey_linear (k : KeyLay) :
    Linear (Owned.blocks k) (cleanUpKey (Owned.ptr k)) fun _ C => C = 0 := by
  let node : Multiset (Nat × Obj Datum) := pt k.node (.data (.keyNode
    ⟨some k.content, some k.time, k.val.ex, k.val.px, k.val.content.length⟩))
  let time : Multiset (Nat × Obj Datum) := pt k.time (.data (.timespec k.val.inputTime))
  have hblocks : Owned.blocks k = strBlock k.content k.val.content + (time + node) := by
    show node + (strBlock k.content k.val.content + time) = _
    abel
  unfold cleanUpKey
  rw [if_neg (by simp [Owned.ptr])]
  refine Linear.read (keyNodeAt_reads (key_mem k)) ?_
  refine Linear.free (time + node) hblocks ?_
  refine Linear.free node rfl ?_
  exact Linear.of_bind_pure (Linear.free 0 (add_zero _).symm (Linear.ret rfl))

theorem cleanUpValue_linear (v : ValueLay) :
    Linear (Owned.blocks v) (cleanUpValue (Owned.ptr v)) fun _ C => C = 0 := by
  have hblocks : Owned.blocks v = strBlock v.content v.bytes +
      pt v.node (.data (.valueNode ⟨some v.content, .bulkStr, v.bytes.length⟩)) := add_comm _ _
  unfold cleanUpValue
  rw [if_neg (by simp [Owned.ptr])]
  refine Linear.read (valueNodeAt_reads (value_mem v)) ?_
  refine Linear.free _ hblocks ?_
  exact Linear.of_bind_pure (Linear.free 0 (add_zero _).symm (Linear.ret rfl))

theorem cleanUpKv_linear (k : KeyLay) (v : ValueLay) :
    Linear (Owned.blocks k + Owned.blocks v) (cleanUpKv (Owned.ptr k) (Owned.ptr v))
      fun _ C => C = 0 := by
  refine Linear.call (cleanUpKey_linear k) _ rfl ?_
  rintro _ _ rfl
  rw [zero_add]
  exact cleanUpValue_linear v

/-- Without a value. -/
theorem cleanUpKv_none (k : KeyLay) :
    Linear (Owned.blocks k) (cleanUpKv (Owned.ptr k) none) fun _ C => C = 0 := by
  refine Linear.bind (cleanUpKey_linear k) ?_
  rintro _ _ rfl
  exact Linear.ret rfl

theorem cleanUpPair_linear (q : Nat) (k : KeyLay) (v : ValueLay) :
    Linear (pairBlocks q k v) (cleanUpPair (some q))
      fun _ C => C = pt q (.pair ⟨Owned.ptr k, Owned.ptr v⟩) := by
  refine Linear.read (pairAt_reads (pair_mem q k v)) ?_
  refine Linear.last (cleanUpKv_linear k v) (pt q (.pair ⟨Owned.ptr k, Owned.ptr v⟩)) ?_ ?_
  · exact add_comm _ _
  · rintro _ _ rfl
    exact zero_add _

/-! ## `key_or_value_node_to_string` and `has_key_expired` -/

theorem keyOrValueNodeToString_linear (hv : Owned.blocks v ⊆ B) :
    Linear B (keyOrValueNodeToString (Owned.ptr v) .typeValueNode) fun p C =>
      ∃ a, p = some a ∧ C = strBlock a (bulkString v.bytes) + B := by
  let digits := decimal v.bytes.length
  unfold keyOrValueNodeToString
  rw [if_neg (by simp [Owned.ptr])]
  have hcontent : Reads B (contentOf (Owned.ptr v) .typeValueNode) (v.bytes.length, some v.content) :=
    (valueNodeAt_reads (hv (value_mem v))).bind (.ret _)
  refine Linear.read hcontent ?_
  refine callocChars_then _ fun a => ?_
  refine memcpy_then (m := digits.length + 2 + v.bytes.length + 3) [] (ascii "$") rfl ?_ ?_
  · show 1 + digits.length + 2 + v.bytes.length + 3 = 1 + _
    omega
  refine memcpy_then (m := 2 + v.bytes.length + 3) (ascii "$") digits rfl (by omega) ?_
  refine memcpy_then (m := v.bytes.length + 3) (ascii "$" ++ digits) (ascii "\r\n") ?_ ?_ ?_
  · rw [List.length_append]
    rfl
  · show 2 + v.bytes.length + 3 = 2 + _
    omega
  refine Linear.read (bytesAt_reads (s := v.bytes ++ [0]) ?_ (by simp)) ?_
  · exact Multiset.mem_add.mpr (.inr (hv (bytes_mem v)))
  rw [List.take_left]
  refine memcpy_then (m := 3) (ascii "$" ++ digits ++ ascii "\r\n") v.bytes ?_ rfl ?_
  · rw [List.length_append, List.length_append]
    rfl
  refine memcpy_then (m := 1) (ascii "$" ++ digits ++ ascii "\r\n" ++ v.bytes) (ascii "\r\n") ?_ rfl ?_
  · rw [List.length_append, List.length_append, List.length_append]
    rfl
  refine memcpy_then (m := 0) (bulkString v.bytes) [0] ?_ rfl ?_
  · rw [bulkString, List.length_append, List.length_append, List.length_append, List.length_append]
    rfl
  refine Linear.ret ⟨a, rfl, ?_⟩
  rw [strBlock, List.replicate_zero, List.append_nil]

theorem hasKeyExpired_reads (lc : Libc) {prev : KeyLay} (hk : Owned.blocks k ⊆ B)
    (hp : Owned.blocks prev ⊆ B) :
    Reads B (hasKeyExpired lc (Owned.ptr k) (Owned.ptr prev))
      (RedisImpl.hasKeyExpired lc k.val prev.val) := by
  refine (keyNodeAt_reads (hp (key_mem prev))).bind ?_
  by_cases h0 : prev.val.ex = 0 ∧ prev.val.px = 0
  · rw [if_pos h0, RedisImpl.hasKeyExpired, if_pos h0]
    exact .ret false
  · rw [if_neg h0]
    refine (keyNodeAt_reads (hk (key_mem k))).bind ?_
    refine (timespecAt_reads (hk (time_mem k))).bind ?_
    refine (timespecAt_reads (hp (time_mem prev))).bind ?_
    exact .ret _

/-- The check passes for the pairs that the commands build. -/
theorem executeSetCheck_reads {l : Layout KeyLay ValueLay} {q : Nat} (hl : l.blocks ⊆ B)
    (hq : pairBlocks q k v ⊆ B) : Reads B (executeSetCheck (some l.sm) (some q)) true := by
  unfold executeSetCheck
  rw [if_neg (by simp)]
  refine (pairAt_reads (hq (pair_mem q k v))).bind ?_
  refine (simpleMapAt_reads (hl l.sm_mem)).bind ?_
  rw [if_neg (by simp [Owned.ptr, Layout.record])]
  refine (keyNodeAt_reads (hq (subset_pairBlocks q k v (key_mem k)))).bind ?_
  rw [if_neg (by simp)]
  exact .ret true

end Compare
end InMemory
end RedisImpl
